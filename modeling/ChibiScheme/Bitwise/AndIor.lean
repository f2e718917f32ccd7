import ChibiScheme.Bitwise.Operands

/-!
# `bit-and` and `bit-ior`

The digits of the result are right, but its sign is read off the top digit of the array: a result
that should be positive is negative when that digit has its top bit set, and the other way round.
-/

namespace ChibiScheme

open Limbs

/-! ## The operators -/

/-- Whether a digit is negative as a signed word. -/
def topBit (word : UInt64) : Prop := 2 ^ 63 ≤ word.toNat

instance (word : UInt64) : Decidable (topBit word) :=
  inferInstanceAs (Decidable (2 ^ 63 ≤ word.toNat))

/-- The second operand in two's complement; a fixnum that is not negative stays a fixnum. -/
def andOperand (len : ℕ) : ExactInt → ExactInt
  | .bignum y => .bignum (sexpTwosComplement y)
  | .fixnum y => if y.val < 0 then .bignum (sexpFixnumToTwosComplement y len) else .fixnum y

/-- The end of both operators for a result that is taken as negative: the complement is undone and
the sign is set to -1. -/
def negativeResult (res : Bignum) : Bignum :=
  let res := sexpSetTwosComplement res
  if res.sign = .pos then res.negate else res

/-- `sexp_bit_and` of two arrays in two's complement. -/
def andDigits (x2 y2 : Bignum) : ExactInt :=
  let res := if y2.data.length < x2.data.length then sexpCopyBignum x2 0 else sexpCopyBignum y2 0
  let len := res.data.length
  let res := { res with data := (List.range len).map fun i => x2.extDigit i &&& y2.extDigit i }
  let res :=
    if (x2.sign = .neg ∨ y2.sign = .neg) ∧ topBit (res.digit (len - 1)) then negativeResult res
    else if res.sign = .neg then res.negate
    else res
  sexpBignumNormalize res

/-- `sexp_bit_and` with a bignum as first operand. -/
def bitAndBignum (x : Bignum) (y : ExactInt) : ExactInt :=
  let x2 := sexpTwosComplement x
  match andOperand x2.data.length y with
  | .fixnum y => .fixnum (sexpMakeFixnum (UInt64.ofInt y.val &&& x2.digit 0).toNat)
  | .bignum y2 => andDigits x2 y2

/-- `sexp_bit_and`: two fixnums as tagged words, otherwise on the digits of the bignum. -/
def sexpBitAnd : ExactInt → ExactInt → ExactInt
  | .fixnum x, .fixnum y => .fixnum (sexpUntag (Int.land x.tagged y.tagged))
  | .fixnum x, .bignum y => bitAndBignum y (.fixnum x)
  | .bignum x, y => bitAndBignum x y

/-- `sexp_bit_ior` of a copy of one operand with the other one, `tmp`, in two's complement. -/
def iorDigits (res tmp : Bignum) : ExactInt :=
  let len := res.data.length
  let res := if res.sign = .neg then sexpSetTwosComplement res else res
  let res := { res with data := (List.range len).map fun i => res.digit i ||| tmp.extDigit i }
  let res :=
    if (res.sign = .neg ∨ tmp.sign = .neg) ∧ topBit (res.digit (len - 1)) then negativeResult res
    else res
  sexpBignumNormalize res

/-- `sexp_bit_ior` with a bignum as first operand. -/
def bitIorBignum (x : Bignum) : ExactInt → ExactInt
  | .fixnum y =>
    if 0 ≤ y.val then
      let res := sexpCopyBignum x 0
      let res := if res.sign = .neg then sexpSetTwosComplement res else res
      let res := res.setDigit 0 (res.digit 0 ||| UInt64.ofInt y.val)
      let res := if res.sign = .neg then sexpSetTwosComplement res else res
      sexpBignumNormalize res
    else
      let res := sexpCopyBignum x 0
      iorDigits res (sexpFixnumToTwosComplement y res.data.length)
  | .bignum y =>
    if y.data.length ≤ x.data.length then iorDigits (sexpCopyBignum x 0) (sexpTwosComplement y)
    else iorDigits (sexpCopyBignum y 0) (sexpTwosComplement x)

/-- `sexp_bit_ior`, with the cases of `sexp_bit_and`. -/
def sexpBitIor : ExactInt → ExactInt → ExactInt
  | .fixnum x, .fixnum y => .fixnum (sexpUntag (Int.lor x.tagged y.tagged))
  | .fixnum x, .bignum y => bitIorBignum y (.fixnum x)
  | .bignum x, y => bitIorBignum x y

/-! ## Results -/

theorem Bignum.HasBits.topBit_iff {a : Bignum} {n : ℤ} (h : a.HasBits n) (hlen : 0 < a.data.length) :
    topBit (a.digit (a.data.length - 1)) ↔ n.testBit (64 * a.data.length - 1) = true := by
  have hdiv : (64 * a.data.length - 1) / 64 = a.data.length - 1 := by omega
  have hmod : (64 * a.data.length - 1) % 64 = 63 := by omega
  have hword := (a.digit (a.data.length - 1)).toNat_lt
  rw [← h, hdiv, hmod, Bignum.extDigit, if_pos (by omega), topBit, Nat.testBit_eq_decide_div_mod_eq,
    decide_eq_true_iff]
  omega

theorem magnitude_of_topBit {res : Bignum} (hlen : 0 < res.data.length) :
    topBit (res.digit (res.data.length - 1)) ↔
      (base : ℤ) ^ res.data.length ≤ 2 * res.magnitude := by
  obtain ⟨k, hk⟩ : ∃ k, res.data.length = k + 1 := ⟨res.data.length - 1, by omega⟩
  have hsplit := value_take_succ res.data k
  rw [← hk, List.take_length] at hsplit
  have hlow := value_take_lt res.data k
  have hbase : base = 2 * 2 ^ 63 := rfl
  have hiff : topBit (res.digit (res.data.length - 1)) ↔
      base ^ (k + 1) ≤ 2 * res.magnitude := by
    have hmag : res.magnitude = value (res.data.take k) + base ^ k * (res.digit k).toNat := by
      rw [Bignum.magnitude, hsplit]
      rfl
    rw [hmag, topBit, hk, Nat.add_sub_cancel, pow_succ base k]
    constructor
    · intro htop
      have hmul : base ^ k * 2 ^ 63 ≤ base ^ k * (res.digit k).toNat := Nat.mul_le_mul_left _ htop
      calc base ^ k * base = 2 * (base ^ k * 2 ^ 63) := by rw [hbase]; ring
        _ ≤ 2 * (value (res.data.take k) + base ^ k * (res.digit k).toNat) := by omega
    · intro hle
      by_contra hnot
      have hmul : base ^ k * (res.digit k).toNat ≤ base ^ k * (2 ^ 63 - 1) :=
        Nat.mul_le_mul_left _ (by omega)
      have hlt : value (res.data.take k) + base ^ k * (res.digit k).toNat < base ^ k * 2 ^ 63 := by
        omega
      have heq : base ^ k * base = 2 * (base ^ k * 2 ^ 63) := by rw [hbase]; ring
      rw [heq] at hle
      omega
  rw [hiff, hk]
  exact_mod_cast Iff.rfl

/-- A result whose top bit is set is taken as negative. -/
theorem negativeResult_toInt {res : Bignum} (hlen : 0 < res.data.length)
    (htop : topBit (res.digit (res.data.length - 1))) :
    (negativeResult res).toInt = res.magnitude - (base : ℤ) ^ res.data.length := by
  have hhalf := (magnitude_of_topBit hlen).mp htop
  have hbase := base_pow_pos res.data.length
  have hnonzero : res.magnitude ≠ 0 := by omega
  have hmag := sexpSetTwosComplement_magnitude res
  rw [if_neg hnonzero] at hmag
  have hlt : res.magnitude < base ^ res.data.length := value_lt res.data
  have hcast : ((sexpSetTwosComplement res).magnitude : ℤ)
      = (base : ℤ) ^ res.data.length - res.magnitude := by
    rw [hmag]
    push_cast [hlt.le]
    rfl
  have hneg : (negativeResult res).toInt = -((sexpSetTwosComplement res).magnitude : ℤ) := by
    simp only [negativeResult]
    split
    · rename_i hsign
      rw [Bignum.toInt_negate, Bignum.toInt, hsign, Sign.toInt_pos, one_mul]
    · rename_i hsign
      have hsign : (sexpSetTwosComplement res).sign = .neg := by
        cases h : (sexpSetTwosComplement res).sign with
        | pos => exact absurd h hsign
        | neg => rfl
      rw [Bignum.toInt, hsign, Sign.toInt_neg, neg_one_mul]
  rw [hneg, hcast]
  ring

/-- What `bit-and` makes of its digits: with a negative operand and the top bit set the number is
taken as negative. -/
theorem andDigits_toInt (x2 y2 : Bignum) {len : ℕ}
    (hlen : len = max x2.data.length y2.data.length) (hpos : 0 < len) :
    (andDigits x2 y2).toInt =
      value ((List.range len).map fun i => x2.extDigit i &&& y2.extDigit i) -
        if (x2.sign = .neg ∨ y2.sign = .neg) ∧
          topBit (((List.range len).map fun i => x2.extDigit i &&& y2.extDigit i).getD (len - 1) 0)
        then (base : ℤ) ^ len else 0 := by
  set data := (List.range len).map fun i => x2.extDigit i &&& y2.extDigit i with hdata
  have hlength : data.length = len := by simp [hdata]
  obtain ⟨copy, hcopy, hcopyLen⟩ : ∃ copy : Bignum,
      (if y2.data.length < x2.data.length then sexpCopyBignum x2 0 else sexpCopyBignum y2 0) = copy ∧
        copy.data.length = len := by
    refine ⟨_, rfl, ?_⟩
    split
    · simp only [sexpCopyBignum, if_true]
      omega
    · simp only [sexpCopyBignum, if_true]
      omega
  unfold andDigits
  simp only [hcopy, hcopyLen, ← hdata, sexpBignumNormalize_toInt]
  have hdigit : Bignum.digit ⟨copy.sign, data⟩ (len - 1) = data.getD (len - 1) 0 := rfl
  rw [hdigit]
  split
  · rename_i hany
    rw [negativeResult_toInt (by simpa [hlength]) (by simpa [hlength, hdigit] using hany.2),
      hlength]
    rfl
  · rw [sub_zero]
    split
    · rename_i hsign
      exact toInt_of_pos (by simp [Bignum.negate, hsign, Sign.flip])
    · rename_i hsign
      refine toInt_of_pos ?_
      cases h : copy.sign with
      | pos => rfl
      | neg => exact absurd h hsign

theorem sub_ite_eq_iff {v amount : ℤ} (hamount : 0 < amount) (P Q : Prop) [Decidable P]
    [Decidable Q] :
    v - (if P then amount else 0) = v - (if Q then amount else 0) ↔ (P ↔ Q) := by
  by_cases hp : P
  · by_cases hq : Q
    · simp [hp, hq]
    · simp [hp, hq, hamount.ne']
  · by_cases hq : Q
    · rw [if_neg hp, if_pos hq]
      simp [hp, hq]
      omega
    · simp [hp, hq]

theorem andDigits_toInt_iff {x2 y2 : Bignum} {m n : ℤ} (hx : x2.HasBits m) (hy : y2.HasBits n)
    {len : ℕ} (hlen : len = max x2.data.length y2.data.length) (hpos : 0 < len) :
    (andDigits x2 y2).toInt = Int.land m n ↔
      (m < 0 ∨ n < 0 → ((m.testBit (64 * len - 1) && n.testBit (64 * len - 1)) = true ↔
        m < 0 ∧ n < 0)) := by
  have hbits := hx.combine hy (f := and) (g := fun v w => v &&& w)
    (hlen ▸ le_max_left x2.data.length y2.data.length)
    (hlen ▸ le_max_right x2.data.length y2.data.length)
    (fun v w i _ => by simp) (fun i => Int.testBit_land m n i)
  have heq := hbits.eq
  have htop := hbits.topBit_iff (by simpa using hpos)
  simp only [List.length_map, List.length_range, Int.testBit_land] at heq htop
  rw [andDigits_toInt x2 y2 hlen hpos, heq, ← hx.sign_iff, ← hy.sign_iff, ← htop,
    Bignum.magnitude, Bignum.digit, sub_ite_eq_iff (base_pow_pos len)]
  generalize topBit _ = top
  cases x2.sign <;> cases y2.sign <;> simp [signOfBit]

/-! ## `bit-ior` of two arrays -/

theorem iorDigits_toInt {res tmp : Bignum} {len : ℕ} (hlen : res.data.length = len)
    (hpos : 0 < len) {data : List UInt64}
    (hdata : data = (List.range len).map fun i =>
      (sexpTwosComplement res).extDigit i ||| tmp.extDigit i) :
    (iorDigits res tmp).toInt =
      if (res.sign = .neg ∨ tmp.sign = .neg) ∧ topBit (data.getD (len - 1) 0) then
        value data - (base : ℤ) ^ len
      else res.sign.toInt * value data := by
  have hlength : data.length = len := by simp [hdata]
  have hdigits : ((List.range len).map fun i =>
      (sexpTwosComplement res).digit i ||| tmp.extDigit i) = data := by
    rw [hdata]
    refine List.map_congr_left fun i hi => ?_
    have hindex : i < (sexpTwosComplement res).data.length := by
      rw [sexpTwosComplement_length, hlen]
      exact List.mem_range.mp hi
    have hdigit : (sexpTwosComplement res).extDigit i = (sexpTwosComplement res).digit i := by
      rw [Bignum.extDigit, if_pos hindex]
    rw [hdigit]
  have hcode : iorDigits res tmp = sexpBignumNormalize
      (if (res.sign = .neg ∨ tmp.sign = .neg) ∧ topBit (data.getD (len - 1) 0) then
        negativeResult ⟨res.sign, data⟩ else ⟨res.sign, data⟩) := by
    unfold iorDigits
    simp only [← sexpTwosComplement_eq, hlen, hdigits, sexpTwosComplement_sign]
    rfl
  rw [hcode, sexpBignumNormalize_toInt]
  by_cases hany : (res.sign = .neg ∨ tmp.sign = .neg) ∧ topBit (data.getD (len - 1) 0)
  · rw [if_pos hany, if_pos hany, negativeResult_toInt (by simpa [hlength])
      (by simpa [hlength, Bignum.digit] using hany.2), hlength]
    rfl
  · rw [if_neg hany, if_neg hany]
    rfl

theorem iorDigits_toInt_iff {res tmp : Bignum} {m n : ℤ}
    (hres : (sexpTwosComplement res).HasBits m) (htmp : tmp.HasBits n) {len : ℕ}
    (hlen : res.data.length = len) (hpos : 0 < len) (htmpLen : tmp.data.length ≤ len) :
    (iorDigits res tmp).toInt = Int.lor m n ↔
      (m < 0 ∨ n < 0 → (m.testBit (64 * len - 1) || n.testBit (64 * len - 1)) = true) := by
  obtain ⟨data, hdata⟩ : ∃ data : List UInt64, data = (List.range len).map fun i =>
    (sexpTwosComplement res).extDigit i ||| tmp.extDigit i := ⟨_, rfl⟩
  have hlength : data.length = len := by simp [hdata]
  have hbits := hres.combine htmp (f := or) (g := fun v w => v ||| w)
    (by rw [sexpTwosComplement_length, hlen]) htmpLen (fun v w i _ => by simp)
    (fun i => Int.testBit_lor m n i)
  rw [← hdata, sexpTwosComplement_sign] at hbits
  have heq := hbits.eq
  have htop := hbits.topBit_iff (by simpa [hlength])
  have hhalf := @magnitude_of_topBit ⟨res.sign, data⟩ (by simpa [hlength])
  simp only [hlength, Int.testBit_lor, Bignum.digit, Bignum.magnitude] at heq htop hhalf
  have hbase := base_pow_pos len
  have hsign := hres.sign_iff
  rw [sexpTwosComplement_sign] at hsign
  rw [iorDigits_toInt hlen hpos hdata, heq, ← hsign, ← htmp.sign_iff, ← htop]
  by_cases ht : topBit (data.getD (len - 1) 0)
  · simp only [ht, and_true, iff_true, implies_true]
    cases res.sign <;> cases tmp.sign <;> simp [signOfBit]
  · -- without the top bit the digits are less than half of what would be taken off
    rw [iff_false_left ht, not_le] at hhalf
    simp only [ht, and_false, if_false, imp_false, not_or]
    cases res.sign <;> cases tmp.sign <;> simp [signOfBit] <;> omega

/-! ## The conditions -/

/-- The digits of a bignum; a fixnum has no array. -/
def ExactInt.arrayLength : ExactInt → ℕ
  | fixnum _ => 0
  | bignum b => b.data.length

/-- The top bit of the longer array. -/
def topPosition (x y : ExactInt) : ℕ := 64 * max x.arrayLength y.arrayLength - 1

/-- A fixnum that is not negative. -/
def ExactInt.isNatFixnum : ExactInt → Bool
  | fixnum n => decide (0 ≤ n.val)
  | bignum _ => false

/-- Where a bignum takes part and an operand is negative, the top bit of the longer array is set in
both operands if and only if both are negative. -/
def AndSafe (x y : ExactInt) : Prop :=
  0 < max x.arrayLength y.arrayLength → x.toInt < 0 ∨ y.toInt < 0 →
    ((x.toInt.testBit (topPosition x y) && y.toInt.testBit (topPosition x y)) = true ↔
      x.toInt < 0 ∧ y.toInt < 0)

/-- Where a bignum takes part and an operand is negative, the top bit of the longer array is set in
an operand, or the other operand is a fixnum that is not negative. -/
def IorSafe (x y : ExactInt) : Prop :=
  0 < max x.arrayLength y.arrayLength → x.toInt < 0 ∨ y.toInt < 0 →
    x.isNatFixnum = true ∨ y.isNatFixnum = true ∨
      (x.toInt.testBit (topPosition x y) || y.toInt.testBit (topPosition x y)) = true

theorem andSafe_comm (x y : ExactInt) : AndSafe x y ↔ AndSafe y x := by
  simp only [AndSafe, topPosition, max_comm x.arrayLength, or_comm (a := x.toInt < 0),
    and_comm (a := x.toInt < 0), Bool.and_comm (x.toInt.testBit _)]

theorem iorSafe_comm (x y : ExactInt) : IorSafe x y ↔ IorSafe y x := by
  simp only [IorSafe, topPosition, max_comm x.arrayLength, or_comm (a := x.toInt < 0),
    Bool.or_comm (x.toInt.testBit _), or_left_comm (a := x.isNatFixnum = true)]

/-! ## One bignum operand -/

theorem land_comm (m n : ℤ) : Int.land m n = Int.land n m :=
  int_eq_of_testBit fun i => by rw [Int.testBit_land, Int.testBit_land, Bool.and_comm]

theorem lor_comm (m n : ℤ) : Int.lor m n = Int.lor n m :=
  int_eq_of_testBit fun i => by rw [Int.testBit_lor, Int.testBit_lor, Bool.or_comm]

theorem bitAndBignum_toInt_iff {x : Bignum} (hx : (ExactInt.bignum x).Canonical) {y : ExactInt}
    (hy : y.Canonical) :
    (bitAndBignum x y).toInt = Int.land x.toInt y.toInt ↔ AndSafe (.bignum x) y := by
  obtain ⟨hnonzero, hlen, hsign⟩ := Bignum.of_canonical hx
  have hbits := sexpTwosComplement_hasBits hnonzero
  cases y with
  | bignum y =>
    obtain ⟨hnonzero', hlen', _⟩ := Bignum.of_canonical hy
    have hiff := andDigits_toInt_iff hbits (sexpTwosComplement_hasBits hnonzero') rfl
      (by simp only [sexpTwosComplement_length]; omega)
    simp only [sexpTwosComplement_length] at hiff
    have hpos : 0 < max x.data.length y.data.length := by omega
    simpa [bitAndBignum, andOperand, AndSafe, topPosition, ExactInt.arrayLength, hpos]
      using hiff
  | fixnum y =>
    by_cases hneg : y.val < 0
    · obtain ⟨_, hleny, hbitsy⟩ := sexpFixnumToTwosComplement_of_neg hneg hlen
      have hiff := andDigits_toInt_iff hbits hbitsy rfl
        (by simp only [sexpTwosComplement_length]; omega)
      simp only [sexpTwosComplement_length, hleny, max_self] at hiff
      simpa [bitAndBignum, andOperand, AndSafe, topPosition, ExactInt.arrayLength, hneg, hlen]
        using hiff
    · have hnat : 0 ≤ y.val := not_lt.mp hneg
      have heq := sexpMakeFixnum_land hbits (by simpa using hlen) hnat
      have hsafe : AndSafe (.bignum x) (.fixnum y) := by
        intro _ _
        have htop : (y.val).testBit (topPosition (.bignum x) (.fixnum y)) = false := by
          rw [y.testBit_high, decide_eq_false hneg]
          simp only [topPosition, ExactInt.arrayLength, Nat.max_zero]
          omega
        simp [htop, hneg]
      refine ⟨fun _ => hsafe, fun _ => ?_⟩
      simpa [bitAndBignum, andOperand, hneg] using heq

theorem bitIorBignum_natFixnum {x : Bignum} (hx : (ExactInt.bignum x).Canonical) {y : Fixnum}
    (hy : 0 ≤ y.val) : (bitIorBignum x (.fixnum y)).toInt = Int.lor x.toInt y.val := by
  obtain ⟨hnonzero, hlen, hsign⟩ := Bignum.of_canonical hx
  have hbits := sexpTwosComplement_hasBits hnonzero
  have hset := hasBits_setDigit hbits (by simpa using hlen) hy (f := or)
    (g := fun v w => v ||| w) (by simp) (by simp) (fun i => Int.testBit_lor x.toInt y.val i)
  have hcode : (bitIorBignum x (.fixnum y)).toInt = (sexpTwosComplement
      ((sexpTwosComplement x).setDigit 0
        ((sexpTwosComplement x).digit 0 ||| UInt64.ofInt y.val))).toInt := by
    simp only [bitIorBignum, hy, if_true, sexpCopyBignum, ← sexpTwosComplement_eq,
      sexpBignumNormalize_toInt]
  rw [hcode, hset.complement_toInt, if_neg]
  rintro ⟨hneg, hzero⟩
  -- the complement of `x` would be zero
  have hmag := sexpSetTwosComplement_magnitude x
  rw [if_neg hnonzero] at hmag
  have hnegx : x.sign = .neg := by simpa [Bignum.setDigit] using hneg
  have hlt : x.magnitude < base ^ x.data.length := value_lt x.data
  have hnone : (sexpTwosComplement x).magnitude = 0 := by
    refine Nat.eq_of_testBit_eq fun i => ?_
    rw [Nat.zero_testBit]
    rcases Nat.lt_or_ge i (64 * x.data.length) with hi | hi
    · have hlow := hset.low (i := i) (by simpa [Bignum.setDigit] using hi)
      rw [hzero, Nat.zero_testBit, Int.testBit_lor] at hlow
      rw [hbits.low (by simpa using hi)]
      simpa using (Bool.or_eq_false_iff.mp hlow.symm).1
    · refine Nat.testBit_lt_two_pow ((value_lt_two_pow _).trans_le ?_)
      rw [sexpTwosComplement_length]
      exact Nat.pow_le_pow_right (by decide) hi
  rw [sexpTwosComplement_eq, if_pos hnegx] at hnone
  omega

theorem bitIorBignum_toInt_iff {x : Bignum} (hx : (ExactInt.bignum x).Canonical) {y : ExactInt}
    (hy : y.Canonical) :
    (bitIorBignum x y).toInt = Int.lor x.toInt y.toInt ↔ IorSafe (.bignum x) y := by
  obtain ⟨hnonzero, hlen, hsign⟩ := Bignum.of_canonical hx
  have hbits := sexpTwosComplement_hasBits hnonzero
  cases y with
  | bignum y =>
    obtain ⟨hnonzero', hlen', _⟩ := Bignum.of_canonical hy
    have hbits' := sexpTwosComplement_hasBits hnonzero'
    by_cases hle : y.data.length ≤ x.data.length
    · have hiff := iorDigits_toInt_iff hbits hbits' rfl hlen (by simpa using hle)
      simpa [bitIorBignum, hle, sexpCopyBignum, IorSafe, topPosition, ExactInt.arrayLength,
        ExactInt.isNatFixnum, hlen] using hiff
    · have hiff := iorDigits_toInt_iff hbits' hbits rfl hlen' (by simpa using (not_le.mp hle).le)
      have hmax : max x.data.length y.data.length = y.data.length :=
        max_eq_right (not_le.mp hle).le
      rw [lor_comm x.toInt, iorSafe_comm]
      simpa [bitIorBignum, hle, sexpCopyBignum, IorSafe, topPosition, ExactInt.arrayLength,
        ExactInt.isNatFixnum, hlen', max_comm y.data.length, hmax] using hiff
  | fixnum y =>
    by_cases hnat : 0 ≤ y.val
    · have hsafe : IorSafe (.bignum x) (.fixnum y) := fun _ _ =>
        .inr (.inl (by simpa [ExactInt.isNatFixnum] using hnat))
      exact ⟨fun _ => hsafe, fun _ => bitIorBignum_natFixnum hx hnat⟩
    · obtain ⟨_, hleny, hbitsy⟩ := sexpFixnumToTwosComplement_of_neg (not_le.mp hnat) hlen
      have hiff := iorDigits_toInt_iff hbits hbitsy rfl hlen hleny.le
      simpa [bitIorBignum, hnat, sexpCopyBignum, IorSafe, topPosition, ExactInt.arrayLength,
        ExactInt.isNatFixnum, hlen] using hiff

/-! ## All operands -/

/-- `bit-and` gives the canonical integer with the conjunctions of the bits. -/
def ConjoinsBits (x y : ExactInt) : Prop :=
  (sexpBitAnd x y).Canonical ∧
    ∀ i, (sexpBitAnd x y).toInt.testBit i = (x.toInt.testBit i && y.toInt.testBit i)

/-- `bit-ior` gives the canonical integer with the disjunctions of the bits. -/
def DisjoinsBits (x y : ExactInt) : Prop :=
  (sexpBitIor x y).Canonical ∧
    ∀ i, (sexpBitIor x y).toInt.testBit i = (x.toInt.testBit i || y.toInt.testBit i)

theorem bitAndBignum_canonical (x : Bignum) (y : ExactInt) : (bitAndBignum x y).Canonical := by
  unfold bitAndBignum
  simp only
  split
  · trivial
  · exact sexpBignumNormalize_canonical _

theorem bitIorBignum_canonical (x : Bignum) (y : ExactInt) : (bitIorBignum x y).Canonical := by
  fun_cases bitIorBignum x y
  all_goals exact sexpBignumNormalize_canonical _

theorem sexpBitAnd_canonical (x y : ExactInt) : (sexpBitAnd x y).Canonical := by
  fun_cases sexpBitAnd x y
  · trivial
  · exact bitAndBignum_canonical _ _
  · exact bitAndBignum_canonical _ _

theorem sexpBitIor_canonical (x y : ExactInt) : (sexpBitIor x y).Canonical := by
  fun_cases sexpBitIor x y
  · trivial
  · exact bitIorBignum_canonical _ _
  · exact bitIorBignum_canonical _ _

theorem sexpBitAnd_toInt_iff {x y : ExactInt} (hx : x.Canonical) (hy : y.Canonical) :
    (sexpBitAnd x y).toInt = Int.land x.toInt y.toInt ↔ AndSafe x y := by
  cases x with
  | bignum x => exact bitAndBignum_toInt_iff hx hy
  | fixnum x =>
    cases y with
    | fixnum y =>
      have heq := sexpUntag_toInt (fun m n => Int.land_bit true m true n) Int.testBit_land x y
      exact ⟨fun _ hpos => absurd hpos (lt_irrefl 0), fun _ => heq⟩
    | bignum y =>
      rw [land_comm, andSafe_comm]
      exact bitAndBignum_toInt_iff hy hx

theorem sexpBitIor_toInt_iff {x y : ExactInt} (hx : x.Canonical) (hy : y.Canonical) :
    (sexpBitIor x y).toInt = Int.lor x.toInt y.toInt ↔ IorSafe x y := by
  cases x with
  | bignum x => exact bitIorBignum_toInt_iff hx hy
  | fixnum x =>
    cases y with
    | fixnum y =>
      have heq := sexpUntag_toInt (fun m n => Int.lor_bit true m true n) Int.testBit_lor x y
      exact ⟨fun _ hpos => absurd hpos (lt_irrefl 0), fun _ => heq⟩
    | bignum y =>
      rw [lor_comm, iorSafe_comm]
      exact bitIorBignum_toInt_iff hy hx

/-- The operators are right if and only if the top bit of the longer array fits the signs, for
operands within the `int` counts of `sexp_set_twos_complement`. -/
theorem bitAnd_bitIor_iff (x y : ExactInt) (hx : x.Canonical) (hy : y.Canonical)
    (_hxfits : x.FitsInt) (_hyfits : y.FitsInt) :
    (ConjoinsBits x y ↔ AndSafe x y) ∧ (DisjoinsBits x y ↔ IorSafe x y) := by
  constructor
  · rw [← sexpBitAnd_toInt_iff hx hy]
    exact bits_iff_toInt_eq (sexpBitAnd_canonical x y) fun i => Int.testBit_land _ _ i
  · rw [← sexpBitIor_toInt_iff hx hy]
    exact bits_iff_toInt_eq (sexpBitIor_canonical x y) fun i => Int.testBit_lor _ _ i

/-- `2 ^ 64` and `-5` have both results right. -/
theorem bitAnd_bitIor_large :
    ConjoinsBits (.bignum ⟨.pos, [0, 1]⟩) (.fixnum (sexpMakeFixnum (-5))) ∧
      DisjoinsBits (.bignum ⟨.pos, [0, 1]⟩) (.fixnum (sexpMakeFixnum (-5))) := by
  have hiff := bitAnd_bitIor_iff (.bignum ⟨.pos, [0, 1]⟩) (.fixnum (sexpMakeFixnum (-5)))
    (by decide) trivial (by decide : (_ : ℕ) ≤ _) trivial
  refine ⟨hiff.1.mpr fun _ _ => ?_, hiff.2.mpr fun _ _ => .inr (.inr ?_)⟩
  · decide
  · decide

/-- `(bitwise-and (expt 2 63) -1)` is negative. -/
theorem bitAnd_topBit :
    ¬ ConjoinsBits (.bignum ⟨.pos, [9223372036854775808]⟩) (.fixnum (sexpMakeFixnum (-1))) := by
  rintro ⟨_, hbits⟩
  exact absurd (hbits 64) (by decide)

end ChibiScheme
