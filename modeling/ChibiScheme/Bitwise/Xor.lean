import ChibiScheme.Bitwise.Operands

/-!
# `bit-xor`

The loop over the digits runs over the second operand only, and where the second operand is the
longer one it is combined with itself.
-/

namespace ChibiScheme

open Limbs List

/-- `sexp_bit_xor` of a copy of one operand with `tmp` in two's complement; `complements` and
`negates` say what is done to the result. -/
def xorDigits (res tmp : Bignum) (complements negates : Bool) : ExactInt :=
  let len := tmp.data.length
  let res := if res.sign = .neg then sexpSetTwosComplement res else res
  let res := { res with data :=
    ((List.range len).map fun i => res.digit i ^^^ tmp.extDigit i) ++ res.data.drop len }
  let res := if complements then sexpSetTwosComplement res else res
  let res := if negates then res.negate else res
  sexpBignumNormalize res

/-- `sexp_bit_xor` with a bignum as first operand. -/
def bitXorBignum (x : Bignum) : ExactInt → ExactInt
  | .fixnum y =>
    if 0 ≤ y.val then
      let res := sexpCopyBignum x 0
      let res := if res.sign = .neg then sexpSetTwosComplement res else res
      let res := res.setDigit 0 (res.digit 0 ^^^ UInt64.ofInt y.val)
      let res := if res.sign = .neg then sexpSetTwosComplement res else res
      sexpBignumNormalize res
    else
      xorDigits (sexpCopyBignum x 0) (sexpFixnumToTwosComplement y x.data.length)
        (decide (x.sign = .neg) ^^ true) true
  | .bignum y =>
    let complements := decide (x.sign = .neg) ^^ decide (y.sign = .neg)
    let negates := decide (y.sign = .neg)
    if y.data.length ≤ x.data.length then
      xorDigits (sexpCopyBignum x 0) (sexpTwosComplement y) complements negates
    else
      xorDigits (sexpCopyBignum y 0) (sexpTwosComplement y) complements negates

/-- `sexp_bit_xor`, with the cases of `sexp_bit_and`. -/
def sexpBitXor : ExactInt → ExactInt → ExactInt
  | .fixnum x, .fixnum y => .fixnum (sexpMakeFixnum (Int.xor x.val y.val))
  | .fixnum x, .bignum y => bitXorBignum y (.fixnum x)
  | .bignum x, y => bitXorBignum x y

/-! ## The digits -/

/-- The digits after the loop: `a` under the digits of `tmp`, the rest of `a` as it is. -/
def xorData (a tmp : Bignum) : List UInt64 :=
  ((List.range tmp.data.length).map fun i => a.digit i ^^^ tmp.extDigit i) ++
    a.data.drop tmp.data.length

theorem length_xorData {a tmp : Bignum} (hlen : tmp.data.length ≤ a.data.length) :
    (xorData a tmp).length = a.data.length := by
  simp only [xorData, length_append, length_map, length_range, length_drop]
  omega

theorem xorDigits_toInt (res tmp : Bignum) (negates : Bool) :
    (xorDigits res tmp (decide (res.sign = .neg) ^^ negates) negates).toInt =
      (sexpTwosComplement ⟨signOfBit (decide (res.sign = .neg) ^^ negates),
        xorData (sexpTwosComplement res) tmp⟩).toInt := by
  have hres : (if res.sign = .neg then sexpSetTwosComplement res else res)
      = sexpTwosComplement res := rfl
  unfold xorDigits
  simp only [hres, sexpBignumNormalize_toInt]
  rw [← xorData, sexpTwosComplement_sign]
  cases hsign : res.sign <;> cases negates <;> rfl

theorem getD_xorData (a tmp : Bignum) (i : ℕ) :
    (xorData a tmp).getD i 0 =
      if i < tmp.data.length then a.digit i ^^^ tmp.extDigit i else a.digit i := by
  rw [xorData]
  split
  · rename_i htmp
    rw [getD_append _ _ _ _ (by simpa using htmp)]
    simp [htmp]
  · rename_i htmp
    rw [getD_append_right _ _ _ _ (by simpa using htmp)]
    have hsub : tmp.data.length + (i - tmp.data.length) = i := by omega
    simp [Bignum.digit, hsub]

theorem xorData_eq {a tmp : Bignum} (hlen : tmp.data.length ≤ a.data.length)
    (hfull : tmp.sign = .neg → tmp.data.length = a.data.length) :
    xorData a tmp = (List.range a.data.length).map fun i => a.extDigit i ^^^ tmp.extDigit i := by
  refine ext_getElem (by simp [length_xorData hlen]) fun i hi hi' => ?_
  have hindex : i < a.data.length := by simpa using hi'
  have hget := getD_xorData a tmp i
  rw [getD_eq_getElem _ _ hi] at hget
  have hdigit : a.extDigit i = a.digit i := by rw [Bignum.extDigit, if_pos hindex]
  rw [hget, getElem_map, getElem_range, hdigit]
  split
  · rfl
  · rename_i htmp
    have hsign : tmp.sign ≠ .neg := fun hneg => htmp (hfull hneg ▸ hindex)
    rw [Bignum.extDigit, if_neg htmp, if_neg hsign, UInt64.xor_zero]

theorem xorData_ne {a tmp : Bignum} (hlt : tmp.data.length < a.data.length)
    (hsign : tmp.sign = .neg) :
    xorData a tmp ≠ (List.range a.data.length).map fun i => a.extDigit i ^^^ tmp.extDigit i := by
  intro heq
  have hget := getD_xorData a tmp tmp.data.length
  rw [heq, if_neg (lt_irrefl _)] at hget
  have hflip : a.digit tmp.data.length ^^^ sexpUintMax = a.digit tmp.data.length := by
    simpa [Bignum.extDigit, hlt, hsign] using hget
  have hbit := congrArg (fun word => word.toNat.testBit 0) hflip
  simp only [UInt64.toNat_xor, Nat.testBit_xor, testBit_sexpUintMax (show 0 < 64 by decide)] at hbit
  cases hzero : (a.digit tmp.data.length).toNat.testBit 0 <;> simp [hzero] at hbit

/-! ## Two numbers whose low bits are the same -/

theorem testBit_sub_two_pow {p N : ℕ} (hp : p < 2 ^ N) {i : ℕ} (hi : i < N) :
    ((p : ℤ) - 2 ^ N).testBit i = p.testBit i := by
  have hbits := testBit_two_pow_sub (m := 2 ^ N - p) (by omega) (Nat.sub_le _ _) hi
  rw [show 2 ^ N - (2 ^ N - p) = p by omega] at hbits
  rw [hbits]
  congr 1
  push_cast [hp.le]
  ring

theorem xor_eq_neg_two_pow_iff {p : ℕ} {q : ℤ} {N : ℕ} (hp : p < 2 ^ N) (hlow : -2 ^ N ≤ q)
    (hneg : q < 0) : Int.xor q p = -2 ^ N ↔ q = p - 2 ^ N := by
  have hpow : (0 : ℤ) < 2 ^ N := by positivity
  have hmin : ∀ i, (-2 ^ N : ℤ).testBit i = decide (N ≤ i) := by
    intro i
    rcases Nat.lt_or_ge i N with hi | hi
    · have hbits := testBit_sub_two_pow (p := 0) (N := N) (by positivity) hi
      have hzero : ((0 : ℕ) : ℤ) - 2 ^ N = -2 ^ N := by push_cast; ring
      rw [hzero] at hbits
      rw [hbits, Nat.zero_testBit, decide_eq_false (by omega)]
    · rw [testBit_of_bounds le_rfl (by omega) hi, decide_eq_true hi, decide_eq_true (by omega)]
  have hhigh : ∀ i, N ≤ i → q.testBit i = true ∧ p.testBit i = false := by
    intro i hi
    rw [testBit_of_bounds hlow (by omega) hi, decide_eq_true hneg]
    exact ⟨rfl, Nat.testBit_lt_two_pow (hp.trans_le (Nat.pow_le_pow_right (by decide) hi))⟩
  constructor
  · intro hxor
    have hsame : ∀ i, i < N → p.testBit i = q.testBit i := by
      intro i hi
      have hbit := congrArg (fun n : ℤ => n.testBit i) hxor
      simp only [Int.testBit_lxor, hmin, testBit_natCast] at hbit
      rw [decide_eq_false (by omega)] at hbit
      cases hq : q.testBit i <;> cases hb : p.testBit i <;> simp_all
    simpa using eq_of_testBit hp hsame fun i hi => (hhigh i hi).1
  · intro heq
    refine int_eq_of_testBit fun i => ?_
    rw [Int.testBit_lxor, hmin, testBit_natCast]
    rcases Nat.lt_or_ge i N with hi | hi
    · rw [heq, testBit_sub_two_pow hp hi, decide_eq_false (by omega)]
      simp
    · rw [(hhigh i hi).1, (hhigh i hi).2, decide_eq_true hi]
      rfl

theorem xor_comm_int (m n : ℤ) : Int.xor m n = Int.xor n m :=
  int_eq_of_testBit fun i => by rw [Int.testBit_lxor, Int.testBit_lxor, Bool.xor_comm]

theorem xor_eq_neg_base_pow_iff {m n : ℤ} {L : ℕ} (hm : -(base : ℤ) ^ L ≤ m ∧ m < (base : ℤ) ^ L)
    (hn : -(base : ℤ) ^ L ≤ n ∧ n < (base : ℤ) ^ L) (hsigns : ¬ (m < 0 ↔ n < 0)) :
    Int.xor m n = -(base : ℤ) ^ L ↔ |m - n| = (base : ℤ) ^ L := by
  have hpow : (base : ℤ) ^ L = 2 ^ (64 * L) := by exact_mod_cast base_pow_eq L
  rw [hpow] at hm hn ⊢
  have hmixed : ∀ q r : ℤ, q < 0 → -2 ^ (64 * L) ≤ q → 0 ≤ r → r < 2 ^ (64 * L) →
      (Int.xor q r = -2 ^ (64 * L) ↔ |q - r| = 2 ^ (64 * L)) := by
    intro q r hneg hlow hnonneg hlt
    obtain ⟨p, rfl⟩ := Int.eq_ofNat_of_zero_le hnonneg
    rw [xor_eq_neg_two_pow_iff (by exact_mod_cast hlt) hlow hneg, abs_of_neg (by omega)]
    constructor
    · intro heq
      omega
    · intro heq
      omega
  by_cases hneg : m < 0
  · have hnonneg : 0 ≤ n := by
      by_contra hnot
      exact hsigns ⟨fun _ => by omega, fun _ => hneg⟩
    exact hmixed m n hneg hm.1 hnonneg hn.2
  · have hn_neg : n < 0 := by
      by_contra hnot
      exact hsigns ⟨fun h => absurd h hneg, fun h => absurd h hnot⟩
    rw [xor_comm_int, abs_sub_comm]
    exact hmixed n m hn_neg hn.1 (by omega) hm.2

theorem Bignum.HasBits.bounds {a : Bignum} {n : ℤ} (h : a.HasBits n) {L : ℕ}
    (hlen : a.data.length ≤ L) : -(base : ℤ) ^ L ≤ n ∧ n < (base : ℤ) ^ L := by
  have heq := h.eq
  have hlt : (a.magnitude : ℤ) < (base : ℤ) ^ a.data.length := by exact_mod_cast value_lt a.data
  have hmono : (base : ℤ) ^ a.data.length ≤ (base : ℤ) ^ L := by
    exact_mod_cast Nat.pow_le_pow_right base_pos hlen
  split at heq
  · omega
  · omega

/-! ## When the result is right -/

section Result

variable {res tmp : Bignum} {m n : ℤ}

/-- The sign of the result: negative if just one operand is. -/
def xorSign (res tmp : Bignum) : Sign :=
  signOfBit (decide (res.sign = .neg) ^^ decide (tmp.sign = .neg))

/-- The digits that the result should have. -/
def xorRight (res tmp : Bignum) : List UInt64 :=
  (List.range res.data.length).map fun i =>
    (sexpTwosComplement res).extDigit i ^^^ tmp.extDigit i

theorem xorRight_hasBits (hres : (sexpTwosComplement res).HasBits m) (htmp : tmp.HasBits n)
    (hlen : tmp.data.length ≤ res.data.length) :
    Bignum.HasBits ⟨xorSign res tmp, xorRight res tmp⟩ (Int.xor m n) := by
  have hbits := hres.combine htmp (f := xor) (g := fun v w => v ^^^ w)
    (sexpTwosComplement_length res).le hlen (fun v w i _ => by simp)
    (fun i => Int.testBit_lxor m n i)
  rw [sexpTwosComplement_sign] at hbits
  exact hbits

@[simp] theorem length_xorRight (res tmp : Bignum) :
    (xorRight res tmp).length = res.data.length := by
  simp [xorRight]

theorem xorDigits_toInt_of_full (hres : (sexpTwosComplement res).HasBits m)
    (htmp : tmp.HasBits n) (hlen : tmp.data.length ≤ res.data.length)
    (hfull : tmp.sign = .neg → tmp.data.length = res.data.length) :
    (xorDigits res tmp (decide (res.sign = .neg) ^^ decide (tmp.sign = .neg))
        (decide (tmp.sign = .neg))).toInt = Int.xor m n ↔
      |m - n| ≠ (base : ℤ) ^ res.data.length := by
  have hbits := xorRight_hasBits hres htmp hlen
  have heq := hbits.eq
  have hdata : xorData (sexpTwosComplement res) tmp = xorRight res tmp := by
    rw [xorData_eq (by rwa [sexpTwosComplement_length]) (by rwa [sexpTwosComplement_length]),
      sexpTwosComplement_length]
    rfl
  have hbase := base_pow_pos res.data.length
  have hsigns : xorSign res tmp = .neg ↔ ¬ (m < 0 ↔ n < 0) := by
    rw [← hres.sign_iff, ← htmp.sign_iff, sexpTwosComplement_sign, xorSign]
    cases res.sign <;> cases tmp.sign <;> simp [signOfBit]
  have hm := hres.bounds (sexpTwosComplement_length res).le
  have hn := htmp.bounds hlen
  simp only [length_xorRight, Bignum.magnitude] at heq
  have hzero : (xorSign res tmp = .neg ∧ value (xorRight res tmp) = 0) ↔
      |m - n| = (base : ℤ) ^ res.data.length := by
    by_cases hneg : xorSign res tmp = .neg
    · rw [← xor_eq_neg_base_pow_iff hm hn (hsigns.mp hneg), heq, if_pos hneg]
      simp only [hneg, true_and]
      omega
    · have hsame := not_not.mp (mt hsigns.mpr hneg)
      have hsmall : |m - n| < (base : ℤ) ^ res.data.length := by
        rw [abs_lt]
        omega
      exact ⟨fun hboth => absurd hboth.1 hneg, fun habs => absurd habs hsmall.ne⟩
  have htoInt := hbits.complement_toInt
  rw [xorDigits_toInt, hdata, ← xorSign, htoInt]
  simp only [Bignum.magnitude, hzero]
  by_cases habs : |m - n| = (base : ℤ) ^ res.data.length
  · obtain ⟨hneg, hmag⟩ := hzero.mpr habs
    rw [if_pos habs, heq, if_pos hneg]
    simp only [habs, ne_eq, not_true_eq_false, iff_false]
    omega
  · rw [if_neg habs]
    simp [habs]

theorem xorDigits_toInt_ne (hres : (sexpTwosComplement res).HasBits m)
    (htmp : tmp.HasBits n) (hlt : tmp.data.length < res.data.length)
    (hneg : tmp.sign = .neg) :
    (xorDigits res tmp (decide (res.sign = .neg) ^^ decide (tmp.sign = .neg))
        (decide (tmp.sign = .neg))).toInt ≠ Int.xor m n := by
  have heq := (xorRight_hasBits hres htmp hlt.le).eq
  have hlength : (xorData (sexpTwosComplement res) tmp).length = res.data.length := by
    rw [length_xorData (by rw [sexpTwosComplement_length]; exact hlt.le),
      sexpTwosComplement_length]
  have hvalue : value (xorData (sexpTwosComplement res) tmp) ≠ value (xorRight res tmp) := by
    intro hsame
    have hdata := value_inj (by rw [hlength, length_xorRight]) hsame
    refine @xorData_ne (sexpTwosComplement res) tmp ?_ hneg ?_
    · rwa [sexpTwosComplement_length]
    · rw [hdata, sexpTwosComplement_length]
      rfl
  have hright_lt : (value (xorRight res tmp) : ℤ) < (base : ℤ) ^ res.data.length := by
    have hright := value_lt (xorRight res tmp)
    rw [length_xorRight] at hright
    exact_mod_cast hright
  have hdata_lt := value_lt (xorData (sexpTwosComplement res) tmp)
  rw [hlength] at hdata_lt
  simp only [length_xorRight, Bignum.magnitude] at heq
  rw [xorDigits_toInt, ← xorSign, heq, sexpTwosComplement_eq]
  cases hsign : xorSign res tmp with
  | pos =>
    simp only [reduceCtorEq, if_false, sub_zero]
    rw [toInt_of_pos rfl]
    exact fun hsame => hvalue (by exact_mod_cast hsame)
  | neg =>
    simp only [if_true]
    rw [Bignum.toInt, sexpSetTwosComplement_sign, sexpSetTwosComplement_magnitude]
    simp only [Sign.toInt_neg, Bignum.magnitude, hlength]
    split
    · simp only [Nat.cast_zero, mul_zero]
      omega
    · push_cast [hdata_lt.le]
      intro hsame
      exact hvalue (by omega)

theorem xorDigits_self (y : Bignum) (complements negates : Bool) :
    (xorDigits y (sexpTwosComplement y) complements negates).toInt = 0 := by
  have hzeros : xorData (sexpTwosComplement y) (sexpTwosComplement y)
      = List.replicate y.data.length 0 := by
    rw [xorData_eq le_rfl fun _ => rfl, sexpTwosComplement_length]
    simp [map_const']
  have hres : (if y.sign = .neg then sexpSetTwosComplement y else y) = sexpTwosComplement y := rfl
  have hmag : Bignum.magnitude ⟨y.sign, List.replicate y.data.length 0⟩ = 0 :=
    value_replicate_zero _
  have hcomp := sexpSetTwosComplement_magnitude ⟨y.sign, List.replicate y.data.length 0⟩
  rw [if_pos hmag] at hcomp
  unfold xorDigits
  simp only [hres, sexpBignumNormalize_toInt]
  rw [← xorData, hzeros, sexpTwosComplement_sign]
  cases complements <;> cases negates <;> simp [Bignum.toInt, hmag, hcomp]

end Result

/-! ## All operands -/

/-- The operands do not differ by exactly what does not fit into the array of the result, the
second of two arrays is not the longer one, and it is as long as the first if it is negative. -/
def XorSafe : ExactInt → ExactInt → Prop
  | .fixnum _, .fixnum _ => True
  | .fixnum x, .bignum y => |y.toInt - x.val| ≠ (base : ℤ) ^ y.data.length
  | .bignum x, .fixnum y => |x.toInt - y.val| ≠ (base : ℤ) ^ x.data.length
  | .bignum x, .bignum y =>
    if y.data.length ≤ x.data.length then
      (y.toInt < 0 → y.data.length = x.data.length) ∧
        |x.toInt - y.toInt| ≠ (base : ℤ) ^ x.data.length
    else x.toInt = y.toInt

/-- `bit-xor` gives the canonical integer with the bits in which the operands differ. -/
def XorsBits (x y : ExactInt) : Prop :=
  (sexpBitXor x y).Canonical ∧
    ∀ i, (sexpBitXor x y).toInt.testBit i = (x.toInt.testBit i ^^ y.toInt.testBit i)

theorem base_pow_ge {L : ℕ} (hL : 0 < L) : (2 : ℤ) ^ 64 ≤ (base : ℤ) ^ L := by
  have hpow : base ^ 1 ≤ base ^ L := Nat.pow_le_pow_right base_pos hL
  rw [pow_one] at hpow
  exact_mod_cast hpow

theorem bitXorBignum_natFixnum {x : Bignum} (hx : (ExactInt.bignum x).Canonical) {y : Fixnum}
    (hy : 0 ≤ y.val) :
    (bitXorBignum x (.fixnum y)).toInt = Int.xor x.toInt y.val ↔
      |x.toInt - y.val| ≠ (base : ℤ) ^ x.data.length := by
  obtain ⟨hnonzero, hlen, hsign⟩ := Bignum.of_canonical hx
  have hbits := sexpTwosComplement_hasBits hnonzero
  have hset := hasBits_setDigit hbits (by simpa using hlen) hy (f := xor)
    (g := fun v w => v ^^^ w) (by simp) (by simp) (fun i => Int.testBit_lxor x.toInt y.val i)
  have hcode : (bitXorBignum x (.fixnum y)).toInt = (sexpTwosComplement
      ((sexpTwosComplement x).setDigit 0
        ((sexpTwosComplement x).digit 0 ^^^ UInt64.ofInt y.val))).toInt := by
    simp only [bitXorBignum, hy, if_true, sexpCopyBignum, ← sexpTwosComplement_eq,
      sexpBignumNormalize_toInt]
  have heq := hset.eq
  have hresSign : ((sexpTwosComplement x).setDigit 0
      ((sexpTwosComplement x).digit 0 ^^^ UInt64.ofInt y.val)).sign = x.sign :=
    sexpTwosComplement_sign x
  have hresLen : ((sexpTwosComplement x).setDigit 0
      ((sexpTwosComplement x).digit 0 ^^^ UInt64.ofInt y.val)).data.length = x.data.length := by
    simp [Bignum.setDigit]
  have hm := hbits.bounds (sexpTwosComplement_length x).le
  have hbase := base_pow_ge hlen
  have hbounds := y.bounds
  rw [hcode, hset.complement_toInt]
  rw [hresSign, hresLen] at heq
  rw [hresSign]
  by_cases hneg : x.sign = .neg
  · have hxneg : x.toInt < 0 := hsign.mp hneg
    have hiff := xor_eq_neg_base_pow_iff hm ⟨by omega, by omega⟩
      (fun hsigns => absurd (hsigns.mp hxneg) (not_lt.mpr hy))
    rw [ne_eq, ← hiff, heq, if_pos hneg]
    simp only [hneg, true_and]
    split
    · rename_i hzero
      simp only [hzero, Nat.cast_zero, zero_sub, not_true_eq_false, iff_false]
      omega
    · simp only [true_iff]
      omega
  · have hxpos : ¬ x.toInt < 0 := fun h => hneg (hsign.mpr h)
    have hsmall : |x.toInt - y.val| < (base : ℤ) ^ x.data.length := by
      rw [abs_lt]
      omega
    simp [hneg, hsmall.ne]

theorem bitXorBignum_toInt_iff {x : Bignum} (hx : (ExactInt.bignum x).Canonical) {y : ExactInt}
    (hy : y.Canonical) :
    (bitXorBignum x y).toInt = Int.xor x.toInt y.toInt ↔ XorSafe (.bignum x) y := by
  obtain ⟨hnonzero, hlen, hsign⟩ := Bignum.of_canonical hx
  have hbits := sexpTwosComplement_hasBits hnonzero
  cases y with
  | bignum y =>
    obtain ⟨hnonzero', hlen', hsign'⟩ := Bignum.of_canonical hy
    have hbits' := sexpTwosComplement_hasBits hnonzero'
    by_cases hle : y.data.length ≤ x.data.length
    · have hcode : (bitXorBignum x (.bignum y)).toInt =
          (xorDigits x (sexpTwosComplement y) (decide (x.sign = .neg) ^^
            decide ((sexpTwosComplement y).sign = .neg))
            (decide ((sexpTwosComplement y).sign = .neg))).toInt := by
        simp [bitXorBignum, hle, sexpCopyBignum]
      rw [hcode, XorSafe, if_pos hle]
      by_cases hfull : y.toInt < 0 → y.data.length = x.data.length
      · have hiff := xorDigits_toInt_of_full hbits hbits' (by simpa using hle) (by
          rw [sexpTwosComplement_sign, sexpTwosComplement_length]
          exact fun hneg => hfull (hsign'.mp hneg))
        rw [ExactInt.toInt_bignum, hiff]
        exact ⟨fun hne => ⟨hfull, hne⟩, fun hboth => hboth.2⟩
      · obtain ⟨hneg, hne⟩ := Classical.not_imp.mp hfull
        have hwrong := xorDigits_toInt_ne hbits hbits'
          (by rw [sexpTwosComplement_length]; omega)
          (by rw [sexpTwosComplement_sign]; exact hsign'.mpr hneg)
        exact ⟨fun htoInt => absurd htoInt hwrong, fun hboth => absurd hboth.1 hfull⟩
    · have hcode : (bitXorBignum x (.bignum y)).toInt = 0 := by
        simp only [bitXorBignum, hle, if_false, sexpCopyBignum, if_true]
        exact xorDigits_self y _ _
      rw [hcode, XorSafe, if_neg hle, ExactInt.toInt_bignum]
      constructor
      · intro hxor
        refine int_eq_of_testBit fun i => ?_
        have hbit := congrArg (fun n : ℤ => n.testBit i) hxor
        have hzero : (0 : ℤ).testBit i = false := Nat.zero_testBit i
        simp only [hzero, Int.testBit_lxor] at hbit
        simpa using hbit.symm
      · intro hsame
        refine int_eq_of_testBit fun i => ?_
        have hzero : (0 : ℤ).testBit i = false := Nat.zero_testBit i
        rw [Int.testBit_lxor, hsame, hzero, Bool.xor_self]
  | fixnum y =>
    by_cases hnat : 0 ≤ y.val
    · exact bitXorBignum_natFixnum hx hnat
    · obtain ⟨hnegy, hleny, hbitsy⟩ :=
        sexpFixnumToTwosComplement_of_neg (not_le.mp hnat) hlen
      have hiff := xorDigits_toInt_of_full hbits hbitsy hleny.le fun _ => hleny
      rw [hnegy] at hiff
      simpa [bitXorBignum, hnat, sexpCopyBignum, XorSafe] using hiff

theorem bitXorBignum_canonical (x : Bignum) (y : ExactInt) : (bitXorBignum x y).Canonical := by
  fun_cases bitXorBignum x y
  all_goals exact sexpBignumNormalize_canonical _

theorem sexpBitXor_canonical (x y : ExactInt) : (sexpBitXor x y).Canonical := by
  fun_cases sexpBitXor x y
  · trivial
  · exact bitXorBignum_canonical _ _
  · exact bitXorBignum_canonical _ _

theorem sexpBitXor_toInt_iff {x y : ExactInt} (hx : x.Canonical) (hy : y.Canonical) :
    (sexpBitXor x y).toInt = Int.xor x.toInt y.toInt ↔ XorSafe x y := by
  cases x with
  | bignum x => exact bitXorBignum_toInt_iff hx hy
  | fixnum x =>
    cases y with
    | fixnum y =>
      have hhigh : ∀ i, 62 ≤ i → (Int.xor x.val y.val).testBit i
          = (decide (x.val < 0) ^^ decide (y.val < 0)) := by
        intro i hi
        rw [Int.testBit_lxor, x.testBit_high hi, y.testBit_high hi]
      exact ⟨fun _ => trivial, fun _ =>
        sexpMakeFixnum_val (inFixnumRange_of_testBit hhigh)⟩
    | bignum y =>
      rw [xor_comm_int]
      exact bitXorBignum_toInt_iff hy hx

/-- The operator is right exactly on safe operands, and on them it is commutative and undoes
itself, within the `int` counts of `sexp_set_twos_complement`. -/
theorem bitXor_iff (x y : ExactInt) (hx : x.Canonical) (hy : y.Canonical)
    (_hxfits : x.FitsInt) (_hyfits : y.FitsInt) :
    (XorsBits x y ↔ XorSafe x y) ∧
      (XorSafe x y → XorSafe y x → (sexpBitXor x y).toInt = (sexpBitXor y x).toInt) ∧
      (XorSafe x y → XorSafe (sexpBitXor x y) y →
        (sexpBitXor (sexpBitXor x y) y).toInt = x.toInt) := by
  have hiff := sexpBitXor_toInt_iff hx hy
  refine ⟨?_, fun hsafe hsafe' => ?_, fun hsafe hsafe' => ?_⟩
  · rw [← hiff]
    exact bits_iff_toInt_eq (sexpBitXor_canonical x y) fun i => Int.testBit_lxor _ _ i
  · rw [hiff.mpr hsafe, (sexpBitXor_toInt_iff hy hx).mpr hsafe', xor_comm_int]
  · rw [(sexpBitXor_toInt_iff (sexpBitXor_canonical x y) hy).mpr hsafe', hiff.mpr hsafe]
    refine int_eq_of_testBit fun i => ?_
    rw [Int.testBit_lxor, Int.testBit_lxor, Bool.xor_assoc, Bool.xor_self, Bool.xor_false]

/-- `2 ^ 128` and `-5`. -/
theorem bitXor_large :
    XorsBits (.bignum ⟨.pos, [0, 0, 1]⟩) (.fixnum (sexpMakeFixnum (-5))) := by
  have hiff := (bitXor_iff (.bignum ⟨.pos, [0, 0, 1]⟩) (.fixnum (sexpMakeFixnum (-5)))
    (by decide) trivial (by decide : (_ : ℕ) ≤ _) trivial).1
  exact hiff.mpr (by show |_| ≠ _; decide)

/-- `(bitwise-xor (expt 2 63) (expt 2 64))` is zero. -/
theorem bitXor_longer :
    ¬ XorsBits (.bignum ⟨.pos, [9223372036854775808]⟩) (.bignum ⟨.pos, [0, 1]⟩) := by
  rintro ⟨_, hbits⟩
  exact absurd (hbits 64) (by decide)

end ChibiScheme
