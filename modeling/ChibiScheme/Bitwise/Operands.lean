import ChibiScheme.Lib.TwosComplement
import ChibiScheme.Numeric.BignumAdd
import Mathlib.Data.Int.Lemmas

/-!
# Digit arrays in two's complement

The bitwise operators bring negative operands into two's complement at the length of their digit
arrays and keep the sign -1, which then stands for all the bits above.  The digit of such an array
at any index, inside it or above, has the bits of the integer.
-/

namespace ChibiScheme

open Limbs List

/-- `sexp_set_twos_complement`: all digits are flipped and one is added, without a final carry.
The length fits in its `int i, len`. -/
def sexpSetTwosComplement (a : Bignum) : Bignum :=
  { a with data := (chain fxaddBody (a.data.map fun word => ~~~word) 1).1 }

/-- `sexp_twos_complement` of a bignum: a negative one is copied and complemented. -/
def sexpTwosComplement (x : Bignum) : Bignum :=
  if x.sign = .neg then sexpSetTwosComplement (sexpCopyBignum x 0) else x

/-- `sexp_fixnum_to_twos_complement`: a fixnum as an array of `len` digits. -/
def sexpFixnumToTwosComplement (x : Fixnum) (len : ℕ) : Bignum :=
  let res := sexpMakeBignum len
  let res :=
    if x.val < 0 then
      { res with data := res.data.take 1 ++ List.replicate (len - 1) sexpUintMax }
    else res
  let res := res.setDigit 0 (~~~UInt64.ofInt (-x.val))
  let res := sexpBignumFxadd res 1
  let res :=
    if res.data.length = len + 1 ∧ res.digit len = 1 then res.setDigit len sexpUintMax else res
  if x.val < 0 then res.withSign .neg else res

/-- The digit at index `i`, and above the array what the sign stands for. -/
def Bignum.extDigit (a : Bignum) (i : ℕ) : UInt64 :=
  if i < a.data.length then a.digit i
  else if a.sign = .neg then sexpUintMax
  else 0

/-- A digit array has the bits of `n`, the sign standing for the bits above it. -/
def Bignum.HasBits (a : Bignum) (n : ℤ) : Prop :=
  ∀ i, (a.extDigit (i / 64)).toNat.testBit (i % 64) = n.testBit i

/-! ## Complements -/

@[simp] theorem sexpSetTwosComplement_sign (a : Bignum) :
    (sexpSetTwosComplement a).sign = a.sign := rfl

@[simp] theorem sexpSetTwosComplement_length (a : Bignum) :
    (sexpSetTwosComplement a).data.length = a.data.length := by
  simp [sexpSetTwosComplement]

theorem sexpSetTwosComplement_magnitude (a : Bignum) :
    (sexpSetTwosComplement a).magnitude =
      if a.magnitude = 0 then 0 else base ^ a.data.length - a.magnitude := by
  have hchain := (chain_value fxaddBody (fun word => (word.toNat : ℤ))
    (fun carry => (carry.toNat : ℤ)) (fun carry => carry.toNat ≤ 1)
    (a.data.map fun word => ~~~word) 1 (by decide)
    (fun word _ carry _ => ⟨fxaddBody_carry_le word carry, fxaddBody_value word carry⟩))
  obtain ⟨hcarry, hvalue⟩ := hchain
  rw [weigh_toNat, length_map] at hvalue
  have hnot := value_map_not a.data
  have hlt := value_lt (sexpSetTwosComplement a).data
  rw [sexpSetTwosComplement_length] at hlt
  have hsum : (sexpSetTwosComplement a).magnitude +
      base ^ a.data.length * (chain fxaddBody (a.data.map fun word => ~~~word) 1).2.toNat +
        a.magnitude = base ^ a.data.length := by
    have hone : ((1 : UInt64).toNat : ℤ) = 1 := rfl
    rw [hone] at hvalue
    have hcast : ((value (a.data.map fun word => ~~~word) + value a.data + 1 : ℕ) : ℤ)
        = ((base ^ a.data.length : ℕ) : ℤ) := by rw [hnot]
    push_cast at hcast
    have hgoal : ((sexpSetTwosComplement a).magnitude : ℤ) + (base : ℤ) ^ a.data.length *
        ((chain fxaddBody (a.data.map fun word => ~~~word) 1).2.toNat : ℤ) +
          (a.magnitude : ℤ) = (base : ℤ) ^ a.data.length := by
      simp only [Bignum.magnitude, sexpSetTwosComplement]
      linear_combination hvalue + hcast
    exact_mod_cast hgoal
  generalize (chain fxaddBody (a.data.map fun word => ~~~word) 1).2.toNat = carry at hcarry hsum
  split
  · rename_i hzero
    have hone : carry = 1 := by
      rcases Nat.le_one_iff_eq_zero_or_eq_one.mp hcarry with rfl | rfl
      · -- without a carry the complement of zero would be as large as the base power
        have hfull : (sexpSetTwosComplement a).magnitude = base ^ a.data.length := by omega
        exact absurd hfull hlt.ne
      · rfl
    subst hone
    omega
  · rename_i hnonzero
    have hzero : carry = 0 := by
      rcases Nat.le_one_iff_eq_zero_or_eq_one.mp hcarry with rfl | rfl
      · rfl
      · omega
    subst hzero
    omega

theorem Bignum.hasBits_of_pos {a : Bignum} (hsign : a.sign = .pos) :
    a.HasBits (a.magnitude : ℤ) := by
  intro i
  rw [testBit_natCast, Bignum.magnitude, testBit_value, Bignum.extDigit, hsign]
  split
  · rfl
  · rename_i hindex
    rw [if_neg (by decide), getD_eq_default _ _ (not_lt.mp hindex)]

theorem testBit_sexpUintMax {i : ℕ} (hi : i < 64) : sexpUintMax.toNat.testBit i = true := by
  have hbits := Nat.testBit_two_pow_sub_one 64 i
  rw [decide_eq_true hi] at hbits
  exact hbits

theorem Bignum.hasBits_of_neg {a : Bignum} {m : ℕ} (hsign : a.sign = .neg) (hpos : 0 < m)
    (hle : m ≤ base ^ a.data.length) (hmag : a.magnitude = base ^ a.data.length - m) :
    a.HasBits (-(m : ℤ)) := by
  rw [base_pow_eq] at hle hmag
  intro i
  rw [Bignum.extDigit, hsign]
  split
  · rename_i hindex
    have hi : i < 64 * a.data.length := by omega
    rw [← testBit_two_pow_sub hpos hle hi, ← hmag, Bignum.magnitude, testBit_value]
    rfl
  · rename_i hindex
    have hi : 64 * a.data.length ≤ i := by omega
    have hsmall : m - 1 < 2 ^ i := by
      have hmono : 2 ^ (64 * a.data.length) ≤ 2 ^ i := Nat.pow_le_pow_right (by decide) hi
      omega
    rw [if_pos rfl, testBit_sexpUintMax (Nat.mod_lt _ (by decide)), testBit_neg hpos,
      Nat.testBit_lt_two_pow hsmall]
    rfl

/-! ## `sexp_twos_complement` -/

theorem sexpTwosComplement_eq (x : Bignum) :
    sexpTwosComplement x = if x.sign = .neg then sexpSetTwosComplement x else x := rfl

@[simp] theorem sexpTwosComplement_sign (x : Bignum) : (sexpTwosComplement x).sign = x.sign := by
  unfold sexpTwosComplement
  split
  · rfl
  · rfl

@[simp] theorem sexpTwosComplement_length (x : Bignum) :
    (sexpTwosComplement x).data.length = x.data.length := by
  unfold sexpTwosComplement
  split
  · simp [sexpCopyBignum]
  · rfl

theorem sexpTwosComplement_hasBits {x : Bignum} (hnonzero : x.magnitude ≠ 0) :
    (sexpTwosComplement x).HasBits x.toInt := by
  unfold sexpTwosComplement Bignum.toInt
  cases hsign : x.sign with
  | pos =>
    have hbits := Bignum.hasBits_of_pos hsign
    simpa using hbits
  | neg =>
    have hmag := sexpSetTwosComplement_magnitude x
    rw [if_neg hnonzero] at hmag
    have hbits := Bignum.hasBits_of_neg (a := sexpSetTwosComplement x) hsign
      (Nat.pos_of_ne_zero hnonzero)
      (by rw [sexpSetTwosComplement_length]; exact (value_lt x.data).le) (by simpa using hmag)
    simpa [sexpCopyBignum] using hbits

/-! ## `sexp_fixnum_to_twos_complement` -/

theorem chain_fxaddBody_zero (words : List UInt64) : chain fxaddBody words 0 = (words, 0) := by
  induction words with
  | nil => rfl
  | cons word words ih => simp [chain, fxaddBody, ih]

theorem sexpBignumFxadd_one {a : Bignum} {word : UInt64} {words : List UInt64}
    (hdata : a.data = word :: words) (hword : word ≠ sexpUintMax) :
    sexpBignumFxadd a 1 = { a with data := (word + 1) :: words } := by
  obtain ⟨len, hlen⟩ : ∃ len, sexpBignumHi a = len + 1 :=
    ⟨sexpBignumHi a - 1, by have hone := one_le_sexpBignumHi a; omega⟩
  have hle : len ≤ words.length := by
    have hhi := sexpBignumHi_le_length (a := a) (by simp [hdata])
    rw [hlen, hdata, length_cons] at hhi
    omega
  have hdigits : a.digits (len + 1) = word :: words.take len := by
    have hzero : len + 1 - (words.length + 1) = 0 := by omega
    simp [Bignum.digits, hdata, hzero]
  have hcarry : ¬ word > sexpUintMax - 1 := by
    rw [gt_uintMax_sub_iff]
    have hlt := toNat_lt_base word
    have hmax : word.toNat ≠ base - 1 := fun heq => hword (UInt64.toNat_inj.mp heq)
    have hone : (1 : UInt64).toNat = 1 := rfl
    omega
  have hchain : chain fxaddBody (word :: words.take len) 1 = ((word + 1) :: words.take len, 0) := by
    simp [chain, fxaddBody, hcarry, chain_fxaddBody_zero]
  unfold sexpBignumFxadd
  simp only [hlen, hdigits, hchain, ne_eq, not_true_eq_false, if_false]
  rw [hdata, drop_succ_cons, cons_append, take_append_drop]

theorem toNat_ofInt_natCast {m : ℕ} (hm : m < base) : (UInt64.ofInt (m : ℤ)).toNat = m := by
  have hemod : ((m : ℤ) % 2 ^ 64).toNat = m := by
    have hcast : (m : ℤ) < 2 ^ 64 := by exact_mod_cast hm
    rw [Int.emod_eq_of_lt (by omega) hcast]
    rfl
  rw [UInt64.ofInt, hemod, UInt64.toNat_ofNat']
  exact Nat.mod_eq_of_lt hm

theorem value_replicate_sexpUintMax (count : ℕ) :
    value (List.replicate count sexpUintMax) + 1 = base ^ count := by
  induction count with
  | zero => rfl
  | succ count ih =>
    have hmax : sexpUintMax.toNat + 1 = base := rfl
    rw [replicate_succ, value_cons, pow_succ, ← ih]
    linear_combination hmax

theorem sexpFixnumToTwosComplement_of_neg {x : Fixnum} (hneg : x.val < 0) {len : ℕ}
    (hlen : 0 < len) :
    (sexpFixnumToTwosComplement x len).sign = .neg ∧
      (sexpFixnumToTwosComplement x len).data.length = len ∧
      (sexpFixnumToTwosComplement x len).HasBits x.val := by
  obtain ⟨n, rfl⟩ : ∃ n, len = n + 1 := ⟨len - 1, by omega⟩
  obtain ⟨m, hm⟩ := Int.eq_ofNat_of_zero_le (show 0 ≤ -x.val by omega)
  have hbounds := x.bounds
  have hbase : base = 2 ^ 64 := rfl
  have hsmall : m < base := by omega
  have hword : (~~~UInt64.ofInt (-x.val)).toNat = base - 1 - m := by
    rw [hm, UInt64.toNat_not, toNat_ofInt_natCast hsmall]
    rfl
  have hlow : ~~~UInt64.ofInt (-x.val) ≠ sexpUintMax := by
    intro heq
    rw [heq] at hword
    have hmax : sexpUintMax.toNat = base - 1 := rfl
    omega
  have hfxadd := sexpBignumFxadd_one
    (a := ⟨.pos, ~~~UInt64.ofInt (-x.val) :: List.replicate n sexpUintMax⟩) rfl hlow
  have hresult : sexpFixnumToTwosComplement x (n + 1) =
      ⟨.neg, (~~~UInt64.ofInt (-x.val) + 1) :: List.replicate n sexpUintMax⟩ := by
    unfold sexpFixnumToTwosComplement
    simp only [hneg, if_true, sexpMakeBignum, Bignum.setDigit, replicate_succ, take_succ_cons,
      take_zero, cons_append, nil_append, set_cons_zero, Nat.add_sub_cancel]
    rw [hfxadd]
    simp [Bignum.withSign]
  rw [hresult]
  refine ⟨rfl, by simp, ?_⟩
  have hval : x.val = -(m : ℤ) := by omega
  have hsum : (~~~UInt64.ofInt (-x.val) + 1).toNat = base - m := by
    have hone : (1 : UInt64).toNat = 1 := rfl
    rw [UInt64.toNat_add, hword, hone, show (2 : ℕ) ^ 64 = base from rfl,
      Nat.mod_eq_of_lt (by omega)]
    omega
  have hones := value_replicate_sexpUintMax n
  have hpow : base ≤ base ^ (n + 1) := by
    rw [pow_succ]
    exact Nat.le_mul_of_pos_left _ (Nat.pow_pos base_pos)
  rw [hval]
  refine Bignum.hasBits_of_neg rfl (by omega) ?_ ?_
  · simp only [length_cons, length_replicate]
    omega
  · simp only [Bignum.magnitude, length_cons, length_replicate]
    rw [value_cons, ← hval, hsum]
    have hmul : base * value (List.replicate n sexpUintMax) + base = base ^ (n + 1) := by
      rw [pow_succ, ← hones]
      ring
    omega

/-! ## Operands of the bitwise operators

What the operators have in common: the digits of two operands are combined at the same index, the
sign standing for the digits above an array, and a fixnum takes part with its word. -/

/-- The word of a fixnum: the number with the tag bit below. -/
def Fixnum.tagged (n : Fixnum) : ℤ := Int.bit true n.val

/-- The fixnum of a word, whatever its tag bit. -/
def sexpUntag (word : ℤ) : Fixnum := sexpMakeFixnum (Int.div2 word)

/-! ## Reading bits -/

/-- The sign that a top bit stands for. -/
def signOfBit (b : Bool) : Sign := if b then .neg else .pos

namespace Bignum

variable {a b : Bignum} {m n : ℤ}

theorem HasBits.high (h : a.HasBits n) {i : ℕ} (hi : 64 * a.data.length ≤ i) :
    n.testBit i = decide (a.sign = .neg) := by
  rw [← h i, extDigit, if_neg (by omega)]
  cases hsign : a.sign with
  | pos => simp
  | neg => simpa using testBit_sexpUintMax (Nat.mod_lt i (by decide))

theorem HasBits.low (h : a.HasBits n) {i : ℕ} (hi : i < 64 * a.data.length) :
    a.magnitude.testBit i = n.testBit i := by
  rw [← h i, magnitude, testBit_value, extDigit, if_pos (by omega)]
  rfl

theorem HasBits.eq (h : a.HasBits n) :
    n = a.magnitude - if a.sign = .neg then (base : ℤ) ^ a.data.length else 0 := by
  have heq := eq_of_testBit (value_lt_two_pow a.data) (fun i => h.low) fun i => h.high
  have hpow : (base : ℤ) ^ a.data.length = 2 ^ (64 * a.data.length) := by
    exact_mod_cast base_pow_eq a.data.length
  rw [hpow]
  simpa [magnitude] using heq

theorem HasBits.sign_iff (h : a.HasBits n) : a.sign = .neg ↔ n < 0 := by
  have heq := h.eq
  have hlt : (a.magnitude : ℤ) < (base : ℤ) ^ a.data.length := by exact_mod_cast value_lt a.data
  by_cases hsign : a.sign = .neg
  · rw [if_pos hsign] at heq
    exact ⟨fun _ => by omega, fun _ => hsign⟩
  · rw [if_neg hsign] at heq
    exact ⟨fun hneg => absurd hneg hsign, fun _ => by omega⟩

theorem HasBits.combine (ha : a.HasBits m) (hb : b.HasBits n) {len : ℕ}
    (hlena : a.data.length ≤ len) (hlenb : b.data.length ≤ len) {f : Bool → Bool → Bool}
    {g : UInt64 → UInt64 → UInt64}
    (hg : ∀ v w i, i < 64 → (g v w).toNat.testBit i = f (v.toNat.testBit i) (w.toNat.testBit i))
    {r : ℤ} (hr : ∀ i, r.testBit i = f (m.testBit i) (n.testBit i)) :
    HasBits ⟨signOfBit (f (decide (a.sign = .neg)) (decide (b.sign = .neg))),
      (List.range len).map fun i => g (a.extDigit i) (b.extDigit i)⟩ r := by
  intro i
  have hmod : i % 64 < 64 := Nat.mod_lt _ (by decide)
  rw [hr]
  simp only [extDigit, List.length_map, List.length_range]
  split
  · rename_i hindex
    have hdigit : digit ⟨signOfBit (f (decide (a.sign = .neg)) (decide (b.sign = .neg))),
        (List.range len).map fun i => g (a.extDigit i) (b.extDigit i)⟩ (i / 64)
          = g (a.extDigit (i / 64)) (b.extDigit (i / 64)) := by
      simp [digit, hindex]
    have hbits := hg (a.extDigit (i / 64)) (b.extDigit (i / 64)) (i % 64) hmod
    rw [ha i, hb i] at hbits
    simpa only [extDigit] using (congrArg (fun w => w.toNat.testBit (i % 64)) hdigit).trans hbits
  · rename_i hindex
    have hlen : 64 * len ≤ i := by omega
    rw [ha.high (by omega), hb.high (by omega)]
    cases hf : f (decide (a.sign = .neg)) (decide (b.sign = .neg)) with
    | false => simp [signOfBit]
    | true => simpa [signOfBit] using testBit_sexpUintMax hmod

end Bignum

variable {a : Bignum}

theorem base_pow_pos (len : ℕ) : (0 : ℤ) < (base : ℤ) ^ len :=
  pow_pos (Nat.cast_pos.mpr base_pos) len

/-- A canonical result is right in its bits if and only if it is right in its value. -/
theorem bits_iff_toInt_eq {r : ExactInt} (hr : r.Canonical) {f : ℕ → Bool}
    (hn : ∀ i, n.testBit i = f i) :
    (r.Canonical ∧ ∀ i, r.toInt.testBit i = f i) ↔ r.toInt = n := by
  constructor
  · intro hbits
    exact int_eq_of_testBit fun i => (hbits.2 i).trans (hn i).symm
  · rintro rfl
    exact ⟨hr, hn⟩

theorem toInt_of_pos (hsign : a.sign = .pos) : a.toInt = a.magnitude := by
  rw [Bignum.toInt, hsign, Sign.toInt_pos, one_mul]

/-! ## Fixnum operands -/

theorem Fixnum.testBit_high (n : Fixnum) {i : ℕ} (hi : 62 ≤ i) :
    n.val.testBit i = decide (n.val < 0) :=
  testBit_of_bounds n.bounds.1 n.bounds.2 hi

variable {n : ℤ}

theorem inFixnumRange_of_testBit {b : Bool} (h : ∀ i, 62 ≤ i → n.testBit i = b) :
    InFixnumRange n := by
  obtain ⟨hlow, hlt, _⟩ := bounds_of_testBit h
  rw [inFixnumRange_iff]
  cases b
  · simp only [Bool.false_eq_true, if_false] at hlow hlt
    omega
  · simp only [if_true] at hlow hlt
    omega

theorem sexpUntag_toInt {op : ℤ → ℤ → ℤ} {f : Bool → Bool → Bool}
    (hbit : ∀ m n, op (Int.bit true m) (Int.bit true n) = Int.bit true (op m n))
    (hop : ∀ m n i, (op m n).testBit i = f (m.testBit i) (n.testBit i)) (x y : Fixnum) :
    (sexpUntag (op x.tagged y.tagged)).val = op x.val y.val := by
  have hhigh : ∀ i, 62 ≤ i → (op x.val y.val).testBit i
      = f (decide (x.val < 0)) (decide (y.val < 0)) := by
    intro i hi
    rw [hop, x.testBit_high hi, y.testBit_high hi]
  rw [sexpUntag, Fixnum.tagged, Fixnum.tagged, hbit, Int.div2_bit]
  exact sexpMakeFixnum_val (inFixnumRange_of_testBit hhigh)

variable {y : Fixnum}

theorem testBit_ofInt (hy : 0 ≤ y.val) (i : ℕ) :
    (UInt64.ofInt y.val).toNat.testBit i = y.val.testBit i := by
  obtain ⟨m, hm⟩ := Int.eq_ofNat_of_zero_le hy
  have hbounds := y.bounds
  have hbase : base = 2 ^ 64 := rfl
  rw [hm, toNat_ofInt_natCast (by omega), testBit_natCast]

theorem Bignum.HasBits.digit_zero (h : a.HasBits n) (hlen : 0 < a.data.length) {i : ℕ}
    (hi : i < 64) :
    (a.digit 0).toNat.testBit i = n.testBit i := by
  have hbit := h i
  rwa [Nat.div_eq_of_lt hi, Nat.mod_eq_of_lt hi, Bignum.extDigit, if_pos hlen] at hbit

theorem sexpMakeFixnum_land (h : a.HasBits n) (hlen : 0 < a.data.length) (hy : 0 ≤ y.val) :
    (sexpMakeFixnum (UInt64.ofInt y.val &&& a.digit 0).toNat).val = Int.land n y.val := by
  have hbits : ∀ i, (UInt64.ofInt y.val &&& a.digit 0).toNat.testBit i
      = (y.val.testBit i && (a.digit 0).toNat.testBit i) := by
    intro i
    rw [UInt64.toNat_and, Nat.testBit_and, testBit_ofInt hy]
  have hsmall : (UInt64.ofInt y.val &&& a.digit 0).toNat < 2 ^ 62 := by
    refine Nat.lt_pow_two_of_testBit _ fun i hi => ?_
    rw [hbits, y.testBit_high hi, decide_eq_false (not_lt.mpr hy), Bool.false_and]
  have heq : Int.land n y.val = (UInt64.ofInt y.val &&& a.digit 0).toNat := by
    refine int_eq_of_testBit fun i => ?_
    rw [Int.testBit_land, testBit_natCast, hbits]
    rcases Nat.lt_or_ge i 64 with hi | hi
    · rw [h.digit_zero hlen hi, Bool.and_comm]
    · rw [y.testBit_high (by omega), decide_eq_false (not_lt.mpr hy), Bool.and_false,
        Bool.false_and]
  rw [heq]
  refine sexpMakeFixnum_val ((inFixnumRange_iff _).mpr ?_)
  omega

theorem Bignum.of_canonical {b : Bignum} (h : (ExactInt.bignum b).Canonical) :
    b.magnitude ≠ 0 ∧ 0 < b.data.length ∧ (b.sign = .neg ↔ b.toInt < 0) := by
  have hwide : 2 ^ 62 ≤ b.magnitude := h.wide
  have hnonzero : b.magnitude ≠ 0 := by omega
  refine ⟨hnonzero, ?_, ?_⟩
  · by_contra hlen
    have hnil : b.data = [] := List.length_eq_zero_iff.mp (by omega)
    exact hnonzero (by rw [Bignum.magnitude, hnil, value_nil])
  · rw [← sexpTwosComplement_sign]
    exact (sexpTwosComplement_hasBits hnonzero).sign_iff

theorem Bignum.HasBits.complement_toInt (h : a.HasBits n) :
    (sexpTwosComplement a).toInt = if a.sign = .neg ∧ a.magnitude = 0 then 0 else n := by
  have heq := h.eq
  have hlt : a.magnitude < base ^ a.data.length := value_lt a.data
  rw [sexpTwosComplement_eq]
  cases hsign : a.sign with
  | pos =>
    rw [hsign] at heq
    simp only [reduceCtorEq, if_false, false_and, sub_zero] at heq ⊢
    rw [heq, toInt_of_pos hsign]
  | neg =>
    rw [hsign, if_pos rfl] at heq
    have hmag := sexpSetTwosComplement_magnitude a
    rw [if_pos rfl, Bignum.toInt, sexpSetTwosComplement_sign, hsign, hmag]
    by_cases hzero : a.magnitude = 0
    · simp [hzero]
    · rw [if_neg hzero, if_neg fun hboth => hzero hboth.2, heq]
      push_cast [hlt.le]
      simp

theorem hasBits_setDigit (h : a.HasBits n) (hlen : 0 < a.data.length) (hy : 0 ≤ y.val)
    {f : Bool → Bool → Bool} (hf : ∀ b, f b false = b) {g : UInt64 → UInt64 → UInt64}
    (hg : ∀ v w i, (g v w).toNat.testBit i = f (v.toNat.testBit i) (w.toNat.testBit i)) {r : ℤ}
    (hr : ∀ i, r.testBit i = f (n.testBit i) (y.val.testBit i)) :
    (a.setDigit 0 (g (a.digit 0) (UInt64.ofInt y.val))).HasBits r := by
  intro i
  have hsetLen : (a.setDigit 0 (g (a.digit 0) (UInt64.ofInt y.val))).data.length
      = a.data.length := by simp [Bignum.setDigit]
  rw [hr]
  rcases Nat.lt_or_ge i 64 with hi | hi
  · have hdigit : (a.setDigit 0 (g (a.digit 0) (UInt64.ofInt y.val))).digit 0
        = g (a.digit 0) (UInt64.ofInt y.val) := by
      simp [Bignum.setDigit, Bignum.digit, hlen]
    rw [Nat.div_eq_of_lt hi, Nat.mod_eq_of_lt hi, Bignum.extDigit, hsetLen, if_pos hlen,
      hdigit, hg, h.digit_zero hlen hi, testBit_ofInt hy]
  · have hdigit : (a.setDigit 0 (g (a.digit 0) (UInt64.ofInt y.val))).digit (i / 64)
        = a.digit (i / 64) := by
      have hne : 0 ≠ i / 64 := by omega
      simp [Bignum.setDigit, Bignum.digit, List.getElem?_set_ne hne]
    have hext : (a.setDigit 0 (g (a.digit 0) (UInt64.ofInt y.val))).extDigit (i / 64)
        = a.extDigit (i / 64) := by
      simp only [Bignum.extDigit, hsetLen, hdigit]
      rfl
    rw [hext, h i, y.testBit_high (by omega), decide_eq_false (not_lt.mpr hy), hf]

end ChibiScheme
