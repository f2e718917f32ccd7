import ChibiScheme.Numeric.BignumMul

/-!
# Double words as pairs of words

Where the compiler has no 128-bit integers, `sexp_luint_t` and `sexp_lsint_t` are
pairs of 64-bit words, and their arithmetic is written out: sums are carried over
four half words, a product with a word is put together from the products of half
words, and a quotient is found bit by bit.  Every operation has the double word
of the native one as its result.
-/

namespace ChibiScheme

open Limbs

/-! ## The native operations on signed double words -/

/-- `lsint_negate` -/
def lsintNegate (v : LUInt) : LUInt := -v

/-- `lsint_mul_sint` -/
def lsintMulSint (a : LUInt) (b : BitVec 64) : LUInt := a * b.signExtend 128

/-- `lsint_lt_0` -/
def lsintLt0 (a : LUInt) : Bool := a.slt 0#128

/-- `sexp_lsint_fits_sint` -/
def sexpLsintFitsSint (x : LUInt) : Bool := (x.setWidth 64).signExtend 128 == x

/-- `sexp_luint_fits_uint` -/
def sexpLuintFitsUint (x : LUInt) : Bool := (x.setWidth 64).setWidth 128 == x

/-- `lsint_is_fixnum` -/
def lsintIsFixnum (x : LUInt) : Bool := sexpMinFixnum ≤ x.toInt && x.toInt ≤ sexpMaxFixnum

/-- `luint_is_fixnum` -/
def luintIsFixnum (x : LUInt) : Bool := (x.toNat : ℤ) ≤ sexpMaxFixnum

/-! ## Pairs of words -/

/-- `sexp_luint_t` and `sexp_lsint_t` under `SEXP_USE_CUSTOM_LONG_LONGS`. -/
structure LongLong where
  hi : BitVec 64
  lo : BitVec 64
deriving DecidableEq

namespace LongLong

/-- The native double word with the same bits. -/
def toLUInt (x : LongLong) : LUInt := x.hi ++ x.lo

/-! ## Half words -/

/-- `w & 0xFFFFFFFF` -/
def lowHalf (w : BitVec 64) : BitVec 64 := w &&& 0xFFFFFFFF#64

/-- `w >> 32` -/
def highHalf (w : BitVec 64) : BitVec 64 := w >>> 32

/-- `(hi << 32) | lo` -/
def joinHalves (hi lo : BitVec 64) : BitVec 64 := hi <<< 32 ||| lo

/-- The end of every sum: the four columns are carried from the low to the high
one, and the last carry is dropped. -/
def carryHalves (sumLoLo sumLoHi sumHiLo sumHiHi : BitVec 64) : LongLong :=
  let resultLoLo := lowHalf sumLoLo
  let sumLoHi := sumLoHi + highHalf sumLoLo
  let resultLoHi := lowHalf sumLoHi
  let sumHiLo := sumHiLo + highHalf sumLoHi
  let resultHiLo := lowHalf sumHiLo
  let sumHiHi := sumHiHi + highHalf sumHiLo
  let resultHiHi := lowHalf sumHiHi
  ⟨joinHalves resultHiHi resultHiLo, joinHalves resultLoHi resultLoLo⟩

variable (a b : LongLong) (w : BitVec 64)

theorem toNat_toLUInt : a.toLUInt.toNat = a.hi.toNat * 2 ^ 64 + a.lo.toNat := by
  have hlo := a.lo.isLt
  rw [toLUInt, BitVec.toNat_append, Nat.shiftLeft_eq, mul_comm, ← Nat.two_pow_add_eq_or_of_lt hlo]

theorem toLUInt_inj : a.toLUInt = b.toLUInt ↔ a = b := by
  constructor
  · intro heq
    obtain ⟨ahi, alo⟩ := a
    obtain ⟨bhi, blo⟩ := b
    have hnat := congrArg BitVec.toNat heq
    rw [toNat_toLUInt, toNat_toLUInt] at hnat
    dsimp only at hnat
    simp only [mk.injEq, ← BitVec.toNat_inj]
    omega
  · exact congrArg toLUInt

@[simp] theorem toNat_lowHalf : (lowHalf w).toNat = w.toNat % 2 ^ 32 := by
  rw [lowHalf, BitVec.toNat_and]
  exact Nat.and_two_pow_sub_one_eq_mod w.toNat 32

@[simp] theorem toNat_highHalf : (highHalf w).toNat = w.toNat / 2 ^ 32 := by
  rw [highHalf, BitVec.toNat_ushiftRight, Nat.shiftRight_eq_div_pow]

theorem toNat_joinHalves {hi lo : BitVec 64} (hhi : hi.toNat < 2 ^ 32) (hlo : lo.toNat < 2 ^ 32) :
    (joinHalves hi lo).toNat = hi.toNat * 2 ^ 32 + lo.toNat := by
  rw [joinHalves, BitVec.toNat_or, BitVec.toNat_shiftLeft, Nat.shiftLeft_eq,
    Nat.mod_eq_of_lt (by omega), mul_comm, ← Nat.two_pow_add_eq_or_of_lt hlo]

theorem toNat_carryHalves {x₀ x₁ x₂ x₃ : BitVec 64} (h₀ : x₀.toNat < 2 ^ 33)
    (h₁ : x₁.toNat < 2 ^ 33) (h₂ : x₂.toNat < 2 ^ 33) (h₃ : x₃.toNat < 2 ^ 33) :
    (carryHalves x₀ x₁ x₂ x₃).toLUInt.toNat =
      (x₀.toNat + 2 ^ 32 * x₁.toNat + 2 ^ 64 * x₂.toNat + 2 ^ 96 * x₃.toNat) % 2 ^ 128 := by
  have hs₁ : (x₁ + highHalf x₀).toNat = x₁.toNat + x₀.toNat / 2 ^ 32 := by
    rw [BitVec.toNat_add, toNat_highHalf]
    omega
  have hs₂ : (x₂ + highHalf (x₁ + highHalf x₀)).toNat =
      x₂.toNat + (x₁.toNat + x₀.toNat / 2 ^ 32) / 2 ^ 32 := by
    rw [BitVec.toNat_add, toNat_highHalf, hs₁]
    omega
  have hs₃ : (x₃ + highHalf (x₂ + highHalf (x₁ + highHalf x₀))).toNat =
      x₃.toNat + (x₂.toNat + (x₁.toNat + x₀.toNat / 2 ^ 32) / 2 ^ 32) / 2 ^ 32 := by
    rw [BitVec.toNat_add, toNat_highHalf, hs₂]
    omega
  have hlow : ∀ w : BitVec 64, (lowHalf w).toNat < 2 ^ 32 := by
    intro w
    rw [toNat_lowHalf]
    omega
  rw [toNat_toLUInt, carryHalves, toNat_joinHalves (hlow _) (hlow _), toNat_joinHalves (hlow _)
    (hlow _), toNat_lowHalf, toNat_lowHalf, toNat_lowHalf, toNat_lowHalf, hs₁, hs₂, hs₃]
  omega

/-! ## Sums and differences -/

/-- `luint_add` -/
def luintAdd (a b : LongLong) : LongLong :=
  carryHalves (lowHalf a.lo + lowHalf b.lo) (highHalf a.lo + highHalf b.lo)
    (lowHalf a.hi + lowHalf b.hi) (highHalf a.hi + highHalf b.hi)

/-- `luint_add_uint` -/
def luintAddUint (a : LongLong) (b : BitVec 64) : LongLong :=
  carryHalves (lowHalf a.lo + lowHalf b) (highHalf a.lo + highHalf b) (lowHalf a.hi)
    (highHalf a.hi)

/-- `lsint_negate` -/
def lsintNegate (v : LongLong) : LongLong :=
  let a : LongLong := ⟨~~~v.hi, ~~~v.lo⟩
  carryHalves (lowHalf a.lo + 1) (highHalf a.lo) (lowHalf a.hi) (highHalf a.hi)

/-- `luint_sub` -/
def luintSub (a b : LongLong) : LongLong :=
  luintAdd a (luintAddUint ⟨~~~b.hi, ~~~b.lo⟩ 1)

theorem toLUInt_luintAdd : (luintAdd a b).toLUInt = a.toLUInt + b.toLUInt := by
  have halo := a.lo.isLt
  have hahi := a.hi.isLt
  have hblo := b.lo.isLt
  have hbhi := b.hi.isLt
  apply BitVec.eq_of_toNat_eq
  rw [luintAdd, toNat_carryHalves] <;>
    simp only [BitVec.toNat_add, toNat_lowHalf, toNat_highHalf, toNat_toLUInt] <;> omega

theorem toLUInt_luintAddUint :
    (luintAddUint a w).toLUInt = a.toLUInt + BitVec.setWidth 128 w := by
  have halo := a.lo.isLt
  have hahi := a.hi.isLt
  have hw := w.isLt
  apply BitVec.eq_of_toNat_eq
  rw [luintAddUint, toNat_carryHalves] <;>
    simp only [BitVec.toNat_add, toNat_lowHalf, toNat_highHalf, toNat_toLUInt,
      BitVec.toNat_setWidth] <;> omega

theorem lsintNegate_eq : lsintNegate a = luintAddUint ⟨~~~a.hi, ~~~a.lo⟩ 1 := by
  have hlow : lowHalf 1 = 1 := by decide
  have hhigh : highHalf 1 = 0#64 := by decide
  rw [lsintNegate, luintAddUint, hlow, hhigh, BitVec.add_zero]

theorem toLUInt_not : toLUInt ⟨~~~a.hi, ~~~a.lo⟩ = ~~~a.toLUInt := BitVec.not_append.symm

theorem toLUInt_lsintNegate : (lsintNegate a).toLUInt = -a.toLUInt := by
  rw [lsintNegate_eq, toLUInt_luintAddUint, toLUInt_not, BitVec.neg_eq_not_add]
  rfl

theorem toLUInt_luintSub : (luintSub a b).toLUInt = a.toLUInt - b.toLUInt := by
  rw [luintSub, toLUInt_luintAdd, ← lsintNegate_eq, toLUInt_lsintNegate, BitVec.sub_eq_add_neg]

/-! ## Shifts -/

/-- `luint_shl` -/
def luintShl (v : LongLong) (shift : ℕ) : LongLong :=
  if shift = 0 then v
  else if shift ≥ 64 then ⟨v.lo <<< (shift - 64), 0#64⟩
  else ⟨v.hi <<< shift ||| v.lo >>> (64 - shift), v.lo <<< shift⟩

/-- `luint_shr` -/
def luintShr (v : LongLong) (shift : ℕ) : LongLong :=
  if shift = 0 then v
  else if shift ≥ 64 then ⟨0#64, v.hi >>> (shift - 64)⟩
  else ⟨v.hi >>> shift, v.lo >>> shift ||| v.hi <<< (64 - shift)⟩

theorem getLsbD_toLUInt (i : ℕ) :
    a.toLUInt.getLsbD i = if i < 64 then a.lo.getLsbD i else a.hi.getLsbD (i - 64) :=
  BitVec.getLsbD_append

theorem toLUInt_luintShl (shift : ℕ) : (luintShl a shift).toLUInt = a.toLUInt <<< shift := by
  apply BitVec.eq_of_getLsbD_eq
  intro i hi
  rw [BitVec.getLsbD_shiftLeft, getLsbD_toLUInt, getLsbD_toLUInt]
  by_cases hzero : shift = 0
  · rw [luintShl, if_pos hzero, hzero]
    grind
  by_cases hwide : shift ≥ 64
  · rw [luintShl, if_neg hzero, if_pos hwide]
    obtain ⟨k, rfl⟩ := Nat.exists_eq_add_of_le hwide
    rw [Nat.add_sub_cancel_left]
    grind
  · rw [luintShl, if_neg hzero, if_neg hwide]
    grind

theorem toLUInt_luintShr (shift : ℕ) : (luintShr a shift).toLUInt = a.toLUInt >>> shift := by
  apply BitVec.eq_of_getLsbD_eq
  intro i hi
  rw [BitVec.getLsbD_ushiftRight, getLsbD_toLUInt, getLsbD_toLUInt]
  by_cases hzero : shift = 0
  · rw [luintShr, if_pos hzero, hzero]
    grind
  by_cases hwide : shift ≥ 64
  · rw [luintShr, if_neg hzero, if_pos hwide]
    obtain ⟨k, rfl⟩ := Nat.exists_eq_add_of_le hwide
    rw [Nat.add_sub_cancel_left]
    grind
  · rw [luintShr, if_neg hzero, if_neg hwide]
    grind

/-! ## Products -/

/-- The product with one half word `c` of the factor, each column by itself. -/
def partialProduct (a : LongLong) (c : BitVec 64) : LongLong :=
  luintAdd
    (luintAdd
      (luintAdd ⟨0, lowHalf a.lo * c⟩ ⟨(highHalf a.lo * c) >>> 32, (highHalf a.lo * c) <<< 32⟩)
      ⟨lowHalf a.hi * c, 0⟩)
    ⟨(highHalf a.hi * c) <<< 32, 0⟩

/-- `luint_mul_uint` -/
def luintMulUint (a : LongLong) (b : BitVec 64) : LongLong :=
  luintAdd (partialProduct a (lowHalf b)) (luintShl (partialProduct a (highHalf b)) 32)

private theorem toNat_halfProduct {x c : BitVec 64} (hx : x.toNat < 2 ^ 32)
    (hc : c.toNat < 2 ^ 32) : (x * c).toNat = x.toNat * c.toNat ∧ x.toNat * c.toNat < 2 ^ 64 := by
  have hlt : x.toNat * c.toNat < 2 ^ 32 * 2 ^ 32 := Nat.mul_lt_mul'' hx hc
  rw [BitVec.toNat_mul]
  omega

theorem toLUInt_partialProduct {c : BitVec 64} (hc : c.toNat < 2 ^ 32) :
    (partialProduct a c).toLUInt = a.toLUInt * BitVec.setWidth 128 c := by
  have hlo := a.lo.isLt
  have hhi := a.hi.isLt
  obtain ⟨h₀, hlt₀⟩ := toNat_halfProduct (x := lowHalf a.lo) (by rw [toNat_lowHalf]; omega) hc
  obtain ⟨h₁, hlt₁⟩ := toNat_halfProduct (x := highHalf a.lo) (by rw [toNat_highHalf]; omega) hc
  obtain ⟨h₂, hlt₂⟩ := toNat_halfProduct (x := lowHalf a.hi) (by rw [toNat_lowHalf]; omega) hc
  obtain ⟨h₃, hlt₃⟩ := toNat_halfProduct (x := highHalf a.hi) (by rw [toNat_highHalf]; omega) hc
  have hsplit : (a.hi.toNat * 2 ^ 64 + a.lo.toNat) * c.toNat =
      (highHalf a.hi).toNat * c.toNat * 2 ^ 96 + (lowHalf a.hi).toNat * c.toNat * 2 ^ 64 +
        (highHalf a.lo).toNat * c.toNat * 2 ^ 32 + (lowHalf a.lo).toNat * c.toNat := by
    have hlo := Nat.div_add_mod a.lo.toNat (2 ^ 32)
    have hhi := Nat.div_add_mod a.hi.toNat (2 ^ 32)
    simp only [toNat_lowHalf, toNat_highHalf]
    conv_lhs => rw [← hlo, ← hhi]
    ring
  apply BitVec.eq_of_toNat_eq
  rw [partialProduct, toLUInt_luintAdd, toLUInt_luintAdd, toLUInt_luintAdd]
  simp only [BitVec.toNat_add, BitVec.toNat_mul, toNat_toLUInt, BitVec.toNat_setWidth,
    BitVec.toNat_ushiftRight, BitVec.toNat_shiftLeft, Nat.shiftRight_eq_div_pow, Nat.shiftLeft_eq,
    h₀, h₁, h₂, h₃] at *
  rw [Nat.mod_eq_of_lt (show c.toNat < 2 ^ 128 by omega), hsplit]
  simp only [BitVec.ofNat_eq_ofNat, BitVec.toNat_ofNat]
  omega

theorem toLUInt_luintMulUint :
    (luintMulUint a w).toLUInt = a.toLUInt * BitVec.setWidth 128 w := by
  have hw := w.isLt
  rw [luintMulUint, toLUInt_luintAdd, toLUInt_luintShl,
    toLUInt_partialProduct a (by rw [toNat_lowHalf]; omega),
    toLUInt_partialProduct a (by rw [toNat_highHalf]; omega)]
  apply BitVec.eq_of_toNat_eq
  have hsplit : a.toLUInt.toNat * w.toNat =
      a.toLUInt.toNat * (w.toNat % 2 ^ 32) + a.toLUInt.toNat * (w.toNat / 2 ^ 32) * 2 ^ 32 := by
    conv_lhs => rw [← Nat.div_add_mod w.toNat (2 ^ 32)]
    ring
  simp only [BitVec.toNat_add, BitVec.toNat_mul, BitVec.toNat_setWidth, BitVec.toNat_shiftLeft,
    Nat.shiftLeft_eq, toNat_lowHalf, toNat_highHalf]
  rw [Nat.mod_eq_of_lt (show w.toNat < 2 ^ 128 by omega), hsplit,
    Nat.mod_eq_of_lt (show w.toNat % 2 ^ 32 < 2 ^ 128 by omega),
    Nat.mod_eq_of_lt (show w.toNat / 2 ^ 32 < 2 ^ 128 by omega)]
  omega

/-- `lsint_lt_0` -/
def lsintLt0 (a : LongLong) : Bool := a.hi.slt 0#64

/-- `lsint_mul_sint` -/
def lsintMulSint (a : LongLong) (b : BitVec 64) : LongLong :=
  if lsintLt0 a then
    let minusA := lsintNegate a
    if b.slt 0#64 then luintMulUint minusA (-b) else lsintNegate (luintMulUint minusA b)
  else if b.slt 0#64 then lsintNegate (luintMulUint a (-b))
  else luintMulUint a b

theorem signExtend_eq :
    w.signExtend 128 = if w.slt 0#64 then -BitVec.setWidth 128 (-w) else BitVec.setWidth 128 w := by
  have hw := w.isLt
  rw [BitVec.slt_zero_eq_msb]
  apply BitVec.eq_of_toNat_eq
  rw [BitVec.toNat_signExtend]
  have hmsb := BitVec.msb_eq_decide w
  split <;> rename_i hneg <;>
    simp only [hneg, BitVec.toNat_neg, BitVec.toNat_setWidth] at hmsb ⊢ <;> grind

theorem toLUInt_lsintMulSint :
    (lsintMulSint a w).toLUInt = ChibiScheme.lsintMulSint a.toLUInt w := by
  rw [ChibiScheme.lsintMulSint, signExtend_eq, lsintMulSint]
  split <;> split <;>
    simp only [toLUInt_lsintNegate, toLUInt_luintMulUint, BitVec.neg_mul, BitVec.mul_neg,
      BitVec.neg_neg]

/-! ## Comparisons and tests -/

/-- `luint_eq` -/
def luintEq (a b : LongLong) : Bool := a.hi == b.hi && a.lo == b.lo

/-- `luint_lt` -/
def luintLt (a b : LongLong) : Bool :=
  if a.hi < b.hi then true else if a.hi > b.hi then false else a.lo < b.lo

/-- `sexp_lsint_fits_sint` -/
def sexpLsintFitsSint (x : LongLong) : Bool := x.hi == x.lo.sshiftRight 63

/-- `sexp_luint_fits_uint` -/
def sexpLuintFitsUint (x : LongLong) : Bool := x.hi == 0#64

/-- `luint_is_fixnum` -/
def luintIsFixnum (x : LongLong) : Bool := x.hi == 0#64 && (x.lo.toNat : ℤ) ≤ sexpMaxFixnum

/-- `lsint_is_fixnum`: the least fixnum is compared as an unsigned word. -/
def lsintIsFixnum (x : LongLong) : Bool :=
  if (0#64).slt x.hi then false
  else if x.hi = 0#64 then (x.lo.toNat : ℤ) ≤ sexpMaxFixnum
  else if x.hi = -1#64 then BitVec.ofInt 64 sexpMinFixnum ≤ x.lo
  else false

theorem luintEq_eq : luintEq a b = (a.toLUInt == b.toLUInt) := by
  rw [Bool.eq_iff_iff, beq_iff_eq, toLUInt_inj, luintEq]
  cases a
  cases b
  simp

theorem luintLt_eq : luintLt a b = decide (a.toLUInt < b.toLUInt) := by
  have ha := a.lo.isLt
  have hb := b.lo.isLt
  simp only [luintLt, gt_iff_lt, BitVec.lt_def, toNat_toLUInt]
  grind

theorem toInt_toLUInt : a.toLUInt.toInt = a.hi.toInt * 2 ^ 64 + a.lo.toNat := by
  have hlo := a.lo.isLt
  have hhi := a.hi.isLt
  rw [BitVec.toInt_eq_toNat_cond, BitVec.toInt_eq_toNat_cond, toNat_toLUInt]
  split <;> split <;> omega

theorem lsintLt0_eq : lsintLt0 a = ChibiScheme.lsintLt0 a.toLUInt := by
  have hlo := a.lo.isLt
  rw [lsintLt0, ChibiScheme.lsintLt0, BitVec.slt_eq_decide, BitVec.slt_eq_decide, toInt_toLUInt,
    decide_eq_decide, BitVec.toInt_zero, BitVec.toInt_zero]
  omega

private theorem toInt_cond : w.toInt = if w.toNat < 2 ^ 63 then (w.toNat : ℤ)
    else w.toNat - 2 ^ 64 := by
  rw [BitVec.toInt_eq_toNat_cond]
  split <;> split <;> omega

theorem luintIsFixnum_eq : luintIsFixnum a = ChibiScheme.luintIsFixnum a.toLUInt := by
  have hlo := a.lo.isLt
  rw [Bool.eq_iff_iff, luintIsFixnum, ChibiScheme.luintIsFixnum, Bool.and_eq_true, beq_iff_eq,
    decide_eq_true_iff, decide_eq_true_iff, toNat_toLUInt, ← BitVec.toNat_inj, BitVec.toNat_ofNat]
  unfold sexpMaxFixnum
  omega

theorem lsintIsFixnum_eq : lsintIsFixnum a = ChibiScheme.lsintIsFixnum a.toLUInt := by
  have hlo := a.lo.isLt
  have hmin : (BitVec.ofInt 64 sexpMinFixnum).toNat = 2 ^ 64 - 2 ^ 62 := by decide
  have hhi := toInt_cond a.hi
  rw [Bool.eq_iff_iff]
  simp only [lsintIsFixnum, ChibiScheme.lsintIsFixnum, Bool.and_eq_true, decide_eq_true_eq,
    toInt_toLUInt, BitVec.slt_eq_decide, BitVec.toInt_zero, ← BitVec.toInt_inj, BitVec.le_def, hmin]
  have hone : (-1#64).toInt = -1 := by decide
  rw [hone]
  unfold sexpMinFixnum sexpMaxFixnum
  split <;> [skip; split <;> [skip; split]] <;> simp <;> omega

theorem sexpLuintFitsUint_eq :
    sexpLuintFitsUint a = ChibiScheme.sexpLuintFitsUint a.toLUInt := by
  have hlo := a.lo.isLt
  rw [Bool.eq_iff_iff]
  simp only [sexpLuintFitsUint, ChibiScheme.sexpLuintFitsUint, beq_iff_eq, ← BitVec.toNat_inj,
    BitVec.toNat_setWidth, toNat_toLUInt, BitVec.toNat_ofNat]
  omega

theorem sexpLsintFitsSint_eq :
    sexpLsintFitsSint a = ChibiScheme.sexpLsintFitsSint a.toLUInt := by
  have hlo := a.lo.isLt
  have hlow : a.toLUInt.setWidth 64 = a.lo := by
    apply BitVec.eq_of_toNat_eq
    rw [BitVec.toNat_setWidth, toNat_toLUInt]
    omega
  rw [Bool.eq_iff_iff]
  simp only [sexpLsintFitsSint, ChibiScheme.sexpLsintFitsSint, beq_iff_eq, hlow,
    ← BitVec.toInt_inj, toInt_toLUInt, BitVec.toInt_signExtend_of_le (show 64 ≤ 128 by decide),
    BitVec.toInt_sshiftRight, Int.shiftRight_eq_div_pow]
  have hint := toInt_cond a.lo
  omega

/-! ## Division -/

/-- The rounds of `luint_div` that are left. -/
def divLoop (b : LongLong) : ℕ → LongLong → LongLong → LongLong → LongLong
  | 0, quotient, _, _ => quotient
  | i + 1, quotient, remainder, a =>
    let quotient := luintShl quotient 1
    let remainder := luintShl remainder 1
    let remainder := { remainder with lo := remainder.lo ||| (a.hi >>> 63 &&& 1#64) }
    let a := luintShl a 1
    if luintLt remainder b then divLoop b i quotient remainder a
    else divLoop b i { quotient with lo := quotient.lo ||| 1#64 } (luintSub remainder b) a

/-- `luint_div` -/
def luintDiv (a b : LongLong) : LongLong :=
  if luintLt a b then ⟨0, 0⟩
  else if luintEq a b then ⟨0, 1⟩
  else divLoop b 128 ⟨0, 0⟩ ⟨0, 0⟩ a

/-- `luint_div_uint` -/
def luintDivUint (a : LongLong) (b : BitVec 64) : LongLong := luintDiv a ⟨0, b⟩

theorem toLUInt_orLow :
    toLUInt { a with lo := a.lo ||| w } = a.toLUInt ||| BitVec.setWidth 128 w := by
  apply BitVec.eq_of_getLsbD_eq
  intro i hi
  rw [BitVec.getLsbD_or, getLsbD_toLUInt, getLsbD_toLUInt]
  grind

theorem shiftLeft_or_ofBool (n : LUInt) (bit : Bool) :
    n <<< 1 ||| BitVec.setWidth 128 (BitVec.setWidth 64 (BitVec.ofBool bit)) =
      n.shiftConcat bit := by
  apply BitVec.eq_of_getLsbD_eq
  intro i hi
  rw [BitVec.getLsbD_shiftConcat]
  grind

theorem divLoop_eq {n : LUInt} {m : ℕ} (hm : m ≤ 128) {quotient remainder a : LongLong}
    {qr : BitVec.DivModState 128} (hwn : qr.wn = m) (hq : quotient.toLUInt = qr.q)
    (hr : remainder.toLUInt = qr.r) (ha : a.toLUInt = n <<< (128 - m)) :
    (divLoop b m quotient remainder a).toLUInt = (BitVec.divRec m ⟨n, b.toLUInt⟩ qr).q := by
  induction m generalizing quotient remainder a qr with
  | zero => exact hq
  | succ m ih =>
    have htop : a.hi.getLsbD 63 = n.getLsbD (qr.wn - 1) := by
      have hbit := congrArg (BitVec.getLsbD · 127) ha
      simp only [getLsbD_toLUInt, BitVec.getLsbD_shiftLeft] at hbit
      grind
    have hrem : toLUInt { luintShl remainder 1 with
        lo := (luintShl remainder 1).lo ||| (a.hi >>> 63 &&& 1#64) } =
        qr.r.shiftConcat (n.getLsbD (qr.wn - 1)) := by
      rw [toLUInt_orLow, BitVec.and_one_eq_setWidth_ofBool_getLsbD, BitVec.getLsbD_ushiftRight,
        toLUInt_luintShl, hr, htop, shiftLeft_or_ofBool]
    have hnext : (luintShl a 1).toLUInt = n <<< (128 - m) := by
      rw [toLUInt_luintShl, ha, ← BitVec.shiftLeft_add]
      congr 1
      omega
    rw [divLoop, BitVec.divRec_succ]
    by_cases hlt : qr.r.shiftConcat (n.getLsbD (qr.wn - 1)) < b.toLUInt
    · have hstep : BitVec.divSubtractShift ⟨n, b.toLUInt⟩ qr = ⟨qr.wn - 1, qr.wr + 1,
          qr.q.shiftConcat false, qr.r.shiftConcat (n.getLsbD (qr.wn - 1))⟩ := if_pos hlt
      rw [hstep, if_pos (by rw [luintLt_eq, hrem, decide_eq_true hlt])]
      refine ih (by omega) (by simp [hwn]) ?_ hrem hnext
      rw [toLUInt_luintShl, hq, ← shiftLeft_or_ofBool]
      exact BitVec.or_zero.symm
    · have hstep : BitVec.divSubtractShift ⟨n, b.toLUInt⟩ qr = ⟨qr.wn - 1, qr.wr + 1,
          qr.q.shiftConcat true, qr.r.shiftConcat (n.getLsbD (qr.wn - 1)) - b.toLUInt⟩ :=
        if_neg hlt
      rw [hstep, if_neg (by rw [luintLt_eq, hrem, decide_eq_false hlt]; decide)]
      refine ih (by omega) (by simp [hwn]) ?_ ?_ hnext
      · rw [toLUInt_orLow, toLUInt_luintShl, hq, ← shiftLeft_or_ofBool]
        rfl
      · rw [toLUInt_luintSub, hrem]

theorem toLUInt_luintDiv (hb : b.toLUInt.toNat ≠ 0) :
    (luintDiv a b).toLUInt = ChibiScheme.luintDiv a.toLUInt b.toLUInt := by
  have hpos : 0#128 < b.toLUInt := BitVec.lt_def.mpr (Nat.pos_of_ne_zero hb)
  rw [luintDiv, luintLt_eq, luintEq_eq]
  by_cases hlt : a.toLUInt < b.toLUInt
  · rw [if_pos (decide_eq_true hlt)]
    apply BitVec.eq_of_toNat_eq
    rw [luintDiv_toNat, Nat.div_eq_of_lt hlt]
    rfl
  · rw [if_neg (by simpa using hlt)]
    by_cases heq : a.toLUInt = b.toLUInt
    · rw [if_pos (beq_iff_eq.mpr heq)]
      apply BitVec.eq_of_toNat_eq
      rw [luintDiv_toNat, heq, Nat.div_self (Nat.pos_of_ne_zero hb)]
      rfl
    · rw [if_neg (by simpa using heq), ChibiScheme.luintDiv, BitVec.udiv_eq_divRec hpos]
      exact divLoop_eq b le_rfl rfl rfl rfl (by simp)

theorem luintFromUint_ofBitVec : luintFromUint (.ofBitVec w) = BitVec.setWidth 128 w := by
  have hw := w.isLt
  apply BitVec.eq_of_toNat_eq
  rw [luintFromUint_toNat, BitVec.toNat_setWidth, Nat.mod_eq_of_lt (by omega)]
  rfl

theorem toNat_toLUInt_word : (toLUInt ⟨0, w⟩).toNat = w.toNat := by
  simp [toNat_toLUInt]

/-- Every operation on pairs of words is the native one on double words: sums,
differences, products and shifts modulo `2 ^ 128`, comparisons in the order of the
integers, and the exact quotient. -/
theorem agrees_with_native :
    (luintAdd a b).toLUInt = ChibiScheme.luintAdd a.toLUInt b.toLUInt ∧
    (luintAddUint a w).toLUInt = a.toLUInt + luintFromUint (.ofBitVec w) ∧
    (luintSub a b).toLUInt = ChibiScheme.luintSub a.toLUInt b.toLUInt ∧
    (luintMulUint a w).toLUInt = ChibiScheme.luintMulUint a.toLUInt (.ofBitVec w) ∧
    (lsintNegate a).toLUInt = ChibiScheme.lsintNegate a.toLUInt ∧
    (lsintMulSint a w).toLUInt = ChibiScheme.lsintMulSint a.toLUInt w ∧
    (∀ shift < 128, (luintShl a shift).toLUInt = ChibiScheme.luintShl a.toLUInt shift ∧
      (luintShr a shift).toLUInt = ChibiScheme.luintShr a.toLUInt shift) ∧
    luintEq a b = (a.toLUInt == b.toLUInt) ∧
    luintLt a b = decide (a.toLUInt.toNat < b.toLUInt.toNat) ∧
    lsintLt0 a = decide (a.toLUInt.toInt < 0) ∧
    luintIsFixnum a = ChibiScheme.luintIsFixnum a.toLUInt ∧
    lsintIsFixnum a = ChibiScheme.lsintIsFixnum a.toLUInt ∧
    sexpLuintFitsUint a = ChibiScheme.sexpLuintFitsUint a.toLUInt ∧
    sexpLsintFitsSint a = ChibiScheme.sexpLsintFitsSint a.toLUInt ∧
    (w ≠ 0 → (luintDivUint a w).toLUInt.toNat = a.toLUInt.toNat / w.toNat) := by
  rw [ChibiScheme.luintMulUint, luintFromUint_ofBitVec]
  refine ⟨toLUInt_luintAdd a b, toLUInt_luintAddUint a w, toLUInt_luintSub a b,
    toLUInt_luintMulUint a w, toLUInt_lsintNegate a, toLUInt_lsintMulSint a w,
    fun shift _ => ⟨toLUInt_luintShl a shift, toLUInt_luintShr a shift⟩, luintEq_eq a b,
    luintLt_eq a b, ?_, luintIsFixnum_eq a, lsintIsFixnum_eq a, sexpLuintFitsUint_eq a,
    sexpLsintFitsSint_eq a, ?_⟩
  · rw [lsintLt0_eq, ChibiScheme.lsintLt0, BitVec.slt_eq_decide, BitVec.toInt_zero]
  · intro hw
    rw [luintDivUint, toLUInt_luintDiv, luintDiv_toNat, toNat_toLUInt_word]
    rw [toNat_toLUInt_word]
    exact fun hzero => hw (BitVec.eq_of_toNat_eq hzero)

/-- The double word `2 ^ 64`, divided by three. -/
theorem agrees_with_native_divides :
    (luintDivUint ⟨1, 0⟩ 3).toLUInt.toNat = (toLUInt ⟨1, 0⟩).toNat / (3 : BitVec 64).toNat := by
  obtain ⟨-, -, -, -, -, -, -, -, -, -, -, -, -, -, hdiv⟩ := agrees_with_native ⟨1, 0⟩ ⟨0, 0⟩ 3
  exact hdiv (by decide)

end LongLong

end ChibiScheme
