import ChibiScheme.Lib.PopCount
import ChibiScheme.Bitwise.Operands
import ChibiScheme.Numeric.Integer

/-!
# `bit-count`, `integer-length` and `bit-set?`

The three queries complement a negative fixnum but look at the magnitude of a negative bignum.  Its
bits are those of the number up to the lowest 1, and all others are flipped.
-/

namespace ChibiScheme

open Limbs Bits List

/-! ## Counting bits -/

/-- `bit_count`: the sums of two, four and eight neighbouring bits, added by a product. -/
def bitCount (i : UInt64) : UInt64 :=
  let i : UInt64 := i - ((i >>> (1 : UInt64)) &&& 0x5555555555555555)
  let i : UInt64 := (i &&& 0x3333333333333333) + ((i >>> (2 : UInt64)) &&& 0x3333333333333333)
  let i : UInt64 := (i + (i >>> (4 : UInt64))) &&& 0x0f0f0f0f0f0f0f0f
  (i * 0x0101010101010101) >>> 56

/-- `sexp_bit_count`: of the magnitude if a bignum is negative. -/
def sexpBitCount : ExactInt → Fixnum
  | .fixnum x =>
    let i := x.val
    sexpMakeFixnum (bitCount (UInt64.ofInt (if i < 0 then -i - 1 else i))).toNat
  | .bignum x => sexpMakeFixnum (x.data.foldl (fun count word => count + bitCount word) 0).toNat

/-! ## Lengths -/

/-- `log_table_256`: the position of the top bit of a byte. -/
def logTable256 : List ℕ :=
  [0, 1, 2, 2] ++ List.replicate 4 3 ++ List.replicate 8 4 ++ List.replicate 16 5 ++
    List.replicate 32 6 ++ List.replicate 64 7 ++ List.replicate 128 8

/-- `integer_log2`: by halves of the word down to a byte of the table. -/
def integerLog2 (x : ℕ) : ℕ :=
  if x / 2 ^ 32 ≠ 0 then integerLog2 (x / 2 ^ 32) + 32
  else if x / 2 ^ 16 ≠ 0 then
    let tt := x / 2 ^ 16
    let t := tt / 2 ^ 8
    if t ≠ 0 then 24 + logTable256.getD t 0 else 16 + logTable256.getD tt 0
  else
    let t := x / 2 ^ 8
    if t ≠ 0 then 8 + logTable256.getD t 0 else logTable256.getD x 0
termination_by x

/-- `sexp_integer_length`: of the magnitude if a bignum is negative. -/
def sexpIntegerLength : ExactInt → Fixnum
  | .fixnum x =>
    let tmp := x.val
    sexpMakeFixnum (integerLog2 (UInt64.ofInt (if tmp < 0 then -tmp - 1 else tmp)).toNat)
  | .bignum x =>
    let hi := sexpBignumHi x
    sexpMakeFixnum (integerLog2 (x.digit (hi - 1)).toNat + (hi - 1 : ℕ) * 64)

/-! ## Single bits -/

/-- The exceptions of `sexp_bit_set_p` for a bad index. -/
inductive IndexError where
  | typeException (i : ExactInt)
  | xtypeException (message : String) (i : ExactInt)
deriving DecidableEq

/-- `sexp_bit_set_p`, its checks of the index included. -/
def sexpBitSetP (i x : ExactInt) : Except IndexError Bool :=
  match i with
  | .bignum _ => .error (.typeException i)
  | .fixnum index =>
    let pos := index.val
    if pos < 0 then .error (.xtypeException "index must be non-negative" i)
    else
      match x with
      | .fixnum x =>
        .ok (if pos < 64 then UInt64.ofInt x.val &&& ((1 : UInt64) <<< UInt64.ofInt pos) ≠ 0
          else x.val < 0)
      | .bignum x =>
        let digit := pos.toNat / 64
        let rem := pos.toNat - digit * 64
        .ok (if digit < x.data.length then
            x.digit digit &&& ((1 : UInt64) <<< UInt64.ofNat rem) ≠ 0
          else x.sign = .neg)

/-! ## Words -/

/-- The first step of `bit_count` on a byte. -/
def countPairs (b : ℕ) : ℕ := b - (b / 2 &&& 0x55)

/-- The second step of `bit_count` on a byte. -/
def countHalves (b : ℕ) : ℕ := (b &&& 0x33) + (b / 4 &&& 0x33)

/-- The third step on a byte adds its halves. -/
def countByte (b : ℕ) : ℕ := (b + b / 16) % 16

theorem countPairs_spec : ∀ b < 256, (b / 2 &&& 0x55) ≤ b ∧ countPairs b < 256 ∧
    (∀ t < 2, b / 2 + 2 ^ 7 * t < 256 ∧ (b / 2 + 2 ^ 7 * t) &&& 0x55 = b / 2 &&& 0x55) := by
  decide +kernel

theorem countHalves_spec : ∀ b < 256,
    (∀ t < 4, b / 4 + 2 ^ 6 * t < 256 ∧ (b / 4 + 2 ^ 6 * t) &&& 0x33 = b / 4 &&& 0x33) ∧
      countHalves (countPairs b) % 16 < 5 ∧ countHalves (countPairs b) / 16 < 5 := by
  decide +kernel

theorem countByte_spec : ∀ b < 256, countByte (countHalves (countPairs b)) =
    b % 2 + (b / 2 % 2 + (b / 2 / 2 % 2 + (b / 2 / 2 / 2 % 2 + (b / 2 / 2 / 2 / 2 % 2 +
      (b / 2 / 2 / 2 / 2 / 2 % 2 + (b / 2 / 2 / 2 / 2 / 2 / 2 % 2 +
        b / 2 / 2 / 2 / 2 / 2 / 2 / 2 % 2)))))) := by
  decide +kernel

theorem countByte_eq_ones {b : ℕ} (hb : b < 256) :
    countByte (countHalves (countPairs b)) = ones b := by
  have htop : b / 2 / 2 / 2 / 2 / 2 / 2 / 2 / 2 = 0 := by omega
  rw [countByte_spec b hb, ones_eq b, ones_eq (b / 2), ones_eq (b / 2 / 2), ones_eq (b / 2 / 2 /
    2), ones_eq (b / 2 / 2 / 2 / 2), ones_eq (b / 2 / 2 / 2 / 2 / 2), ones_eq (b / 2 / 2 / 2 / 2 / 2
    / 2), ones_eq (b / 2 / 2 / 2 / 2 / 2 / 2 / 2), htop, ones_zero, add_zero]

theorem mask_eq {bytes : List ℕ} (hlen : bytes.length = 8) (m : ℕ) :
    Nat.ofDigits 256 (bytes.map fun _ => m) = 0x0101010101010101 * m := by
  have hreplicate : bytes.map (fun _ => m) = List.replicate 8 m := by
    rw [map_const', hlen]
  rw [hreplicate]
  simp only [List.replicate, Nat.ofDigits_cons, Nat.ofDigits_nil]
  ring

theorem sum_bytes {bytes : List ℕ} (hlen : bytes.length = 8) (hsmall : ∀ b ∈ bytes, b < 16) :
    Nat.ofDigits 256 bytes * 0x0101010101010101 % 2 ^ 64 / 2 ^ 56 = bytes.sum := by
  obtain ⟨b0, bytes, rfl⟩ := exists_cons_of_length_eq_add_one hlen
  obtain ⟨b1, bytes, rfl⟩ := exists_cons_of_length_eq_add_one (Nat.succ_injective hlen)
  match bytes, hlen with
  | [b2, b3, b4, b5, b6, b7], _ =>
    simp only [mem_cons, not_mem_nil, or_false, forall_eq_or_imp, forall_eq] at hsmall
    simp only [Nat.ofDigits_cons, Nat.ofDigits_nil, sum_cons, sum_nil]
    -- below the highest byte of the product stand partial sums, above it what is cut off
    have hproduct : (b0 + 256 * (b1 + 256 * (b2 + 256 * (b3 + 256 * (b4 + 256 * (b5 + 256 * (b6 +
        256 * (b7 + 256 * 0)))))))) * 0x0101010101010101 =
      (1 * (b0) +
      256 * (b0 + b1) +
      65536 * (b0 + b1 + b2) +
      16777216 * (b0 + b1 + b2 + b3) +
      4294967296 * (b0 + b1 + b2 + b3 + b4) +
      1099511627776 * (b0 + b1 + b2 + b3 + b4 + b5) +
      281474976710656 * (b0 + b1 + b2 + b3 + b4 + b5 + b6)) +
      2 ^ 56 * (b0 + b1 + b2 + b3 + b4 + b5 + b6 + b7) +
      2 ^ 64 * (1 * (b1 + b2 + b3 + b4 + b5 + b6 + b7) +
      256 * (b2 + b3 + b4 + b5 + b6 + b7) +
      65536 * (b3 + b4 + b5 + b6 + b7) +
      16777216 * (b4 + b5 + b6 + b7) +
      4294967296 * (b5 + b6 + b7) +
      1099511627776 * (b6 + b7) +
      281474976710656 * (b7)) := by
      ring
    rw [hproduct, Nat.add_mul_mod_self_left, Nat.mod_eq_of_lt (by omega),
      Nat.add_mul_div_left _ _ (by decide), Nat.div_eq_of_lt (by omega)]
    ring

section

variable {bytes : List ℕ} (hlen : bytes.length = 8) (hbytes : ∀ b ∈ bytes, b < 256) {i : UInt64}

include hlen hbytes

theorem countPairs_word (hi : Nat.ofDigits 256 bytes = i.toNat) :
    (i - ((i >>> (1 : UInt64)) &&& 0x5555555555555555)).toNat =
      Nat.ofDigits 256 (bytes.map countPairs) := by
  have hmask := ofDigits_shift_land (c := 0) (k := 1) (m := 0x55) (T := 2)
    (f := fun b => b / 2 &&& 0x55) (by decide) (by decide) (by decide) bytes
    (fun b _ => Nat.mod_lt b (by decide))
    (fun b hb t ht => by simpa using (countPairs_spec b (hbytes b hb)).2.2 t ht)
  have hsum := ofDigits_map_add countPairs (fun b => b / 2 &&& 0x55) bytes
  have hself : bytes.map (fun b => countPairs b + (b / 2 &&& 0x55)) = bytes := by
    refine (map_congr_left fun b hb => ?_).trans (map_id bytes)
    exact Nat.sub_add_cancel (countPairs_spec b (hbytes b hb)).1
  rw [mask_eq hlen, zero_mul, zero_add, hi] at hmask
  rw [hself, hi, ← hmask] at hsum
  have hword : ((i >>> (1 : UInt64)) &&& 0x5555555555555555).toNat
      = i.toNat / 2 ^ 1 &&& 0x0101010101010101 * 0x55 := by
    rw [UInt64.toNat_and, UInt64.toNat_shiftRight, Nat.shiftRight_eq_div_pow]
    rfl
  have hle : (i >>> (1 : UInt64)) &&& 0x5555555555555555 ≤ i := by
    rw [UInt64.le_iff_toNat_le, hword]
    omega
  rw [UInt64.toNat_sub_of_le _ _ hle, hword]
  omega

theorem countHalves_word (hi : i.toNat = Nat.ofDigits 256 (bytes.map countPairs)) :
    ((i &&& 0x3333333333333333) + ((i >>> (2 : UInt64)) &&& 0x3333333333333333)).toNat =
      Nat.ofDigits 256 (bytes.map fun b => countHalves (countPairs b)) := by
  have hpairs : ∀ b ∈ bytes.map countPairs, b < 256 := by
    intro b hb
    obtain ⟨a, ha, rfl⟩ := mem_map.mp hb
    exact (countPairs_spec a (hbytes a ha)).2.1
  have hmapLen : (bytes.map countPairs).length = 8 := by rw [length_map, hlen]
  have hlow := ofDigits_shift_land (c := 0) (k := 0) (m := 0x33) (T := 1)
    (f := fun b => b &&& 0x33) (by decide) (by decide) (by decide) (bytes.map countPairs)
    (fun b _ => Nat.mod_lt b (by decide))
    (fun b hb t ht => by
      obtain rfl : t = 0 := by omega
      simpa using hpairs b hb)
  have hhigh := ofDigits_shift_land (c := 0) (k := 2) (m := 0x33) (T := 4)
    (f := fun b => b / 4 &&& 0x33) (by decide) (by decide) (by decide) (bytes.map countPairs)
    (fun b _ => Nat.mod_lt b (by decide))
    (fun b hb t ht => by simpa using (countHalves_spec b (hpairs b hb)).1 t ht)
  rw [mask_eq hmapLen, zero_mul, zero_add, ← hi] at hlow hhigh
  have hsum := ofDigits_map_add (fun b => b &&& 0x33) (fun b => b / 4 &&& 0x33)
    (bytes.map countPairs)
  rw [← hlow, ← hhigh, map_map] at hsum
  rw [UInt64.toNat_add, UInt64.toNat_and, UInt64.toNat_and, UInt64.toNat_shiftRight,
    Nat.shiftRight_eq_div_pow]
  refine (Nat.mod_eq_of_lt ?_).trans ?_
  · have hand : ∀ a : ℕ, a &&& 0x3333333333333333 ≤ 0x3333333333333333 := fun a => Nat.and_le_right
    exact (Nat.add_le_add (hand _) (hand _)).trans_lt (by decide)
  · rw [pow_zero, Nat.div_one] at hsum
    exact hsum

theorem countByte_word
    (hi : i.toNat = Nat.ofDigits 256 (bytes.map fun b => countHalves (countPairs b))) :
    ((i + (i >>> (4 : UInt64))) &&& 0x0f0f0f0f0f0f0f0f).toNat =
      Nat.ofDigits 256 (bytes.map ones) := by
  have hhalves : ∀ b ∈ bytes.map fun b => countHalves (countPairs b),
      b % 16 < 5 ∧ b / 16 < 5 := by
    intro b hb
    obtain ⟨a, ha, rfl⟩ := mem_map.mp hb
    exact (countHalves_spec a (hbytes a ha)).2
  have hmask := ofDigits_shift_land (c := 1) (k := 4) (m := 0x0f) (T := 5) (f := countByte)
    (by decide) (by decide) (by decide) (bytes.map fun b => countHalves (countPairs b))
    (fun b hb => (hhalves b hb).1)
    (fun b hb t ht => by
      have hb := hhalves b hb
      rw [show 0x0f = 2 ^ 4 - 1 from rfl, Nat.and_two_pow_sub_one_eq_mod, countByte]
      omega)
  rw [mask_eq (by rw [length_map, hlen]), one_mul, ← hi, map_map] at hmask
  have hones : bytes.map (countByte ∘ fun b => countHalves (countPairs b)) = bytes.map ones :=
    map_congr_left fun b hb => countByte_eq_ones (hbytes b hb)
  rw [hones] at hmask
  -- what the sum loses is above the mask
  have hmod : ∀ a : ℕ, a % 2 ^ 64 &&& 0x0f0f0f0f0f0f0f0f = a &&& 0x0f0f0f0f0f0f0f0f := by
    intro a
    have hand := @Nat.and_mod_two_pow a 0x0f0f0f0f0f0f0f0f 64
    rw [Nat.mod_eq_of_lt (Nat.and_le_right.trans_lt (by decide))] at hand
    exact hand.symm
  rw [UInt64.toNat_and, UInt64.toNat_add, UInt64.toNat_shiftRight, Nat.shiftRight_eq_div_pow,
    ← hmask]
  exact hmod _

end

theorem bitCount_toNat (i : UInt64) : (bitCount i).toNat = ones i.toNat := by
  obtain ⟨bytes, hlen, hbytes, hvalue⟩ := exists_bytes (w := i.toNat) (n := 8) i.toNat_lt
  have hbits := countByte_word hlen hbytes
    (countHalves_word hlen hbytes (countPairs_word hlen hbytes hvalue))
  have hsmall : ∀ b ∈ bytes.map ones, b < 16 := by
    intro b hb
    obtain ⟨a, ha, rfl⟩ := mem_map.mp hb
    have hle := @ones_le_of_lt a 8 (hbytes a ha)
    omega
  rw [← hvalue, ones_ofDigits bytes hbytes, ← sum_bytes (by rw [length_map, hlen]) hsmall,
    ← hbits]
  simp only [bitCount]
  rw [UInt64.toNat_shiftRight, UInt64.toNat_mul, Nat.shiftRight_eq_div_pow]
  rfl

theorem logTable256_spec : ∀ x < 256, x < 2 ^ logTable256.getD x 0 ∧
    2 ^ logTable256.getD x 0 ≤ max 1 (2 * x) := by
  decide +kernel

theorem logTable256_eq_size {x : ℕ} (hx : x < 256) : logTable256.getD x 0 = x.size := by
  obtain ⟨hlt, hle⟩ := logTable256_spec x hx
  refine le_antisymm ?_ (Nat.size_le.mpr hlt)
  generalize logTable256.getD x 0 = s at hlt hle
  cases s with
  | zero => exact Nat.zero_le _
  | succ s =>
    refine Nat.lt_size.mpr ?_
    rw [pow_succ] at hle
    omega

theorem integerLog2_eq_size (x : ℕ) : integerLog2 x = x.size := by
  induction x using integerLog2.induct with
  | case1 x hhigh ih =>
    rw [integerLog2, if_pos hhigh, ih, ← size_eq_add hhigh]
  | case2 x hhigh hmid tt t ht =>
    rw [integerLog2, if_neg hhigh, if_pos hmid]
    simp only
    rw [if_pos ht, logTable256_eq_size (by omega), size_eq_add hmid,
      size_eq_add (n := x / 2 ^ 16) (k := 8) ht]
    omega
  | case3 x hhigh hmid tt t ht =>
    rw [integerLog2, if_neg hhigh, if_pos hmid]
    simp only
    rw [if_neg ht, logTable256_eq_size (by omega), size_eq_add hmid, add_comm]
  | case4 x hhigh hmid t ht =>
    rw [integerLog2, if_neg hhigh, if_neg hmid]
    simp only
    rw [if_pos ht, logTable256_eq_size (by omega), size_eq_add (n := x) (k := 8) ht, add_comm]
  | case5 x hhigh hmid t ht =>
    rw [integerLog2, if_neg hhigh, if_neg hmid]
    simp only
    rw [if_neg ht, logTable256_eq_size (by omega)]

/-! ## Digit arrays -/

theorem ones_value (words : List UInt64) :
    ones (value words) = (words.map fun word => ones word.toNat).sum := by
  induction words with
  | nil => simp
  | cons word words ih =>
    have hsplit := ones_add_two_pow_mul (k := 64) word.toNat_lt (value words)
    rw [value_cons, map_cons, sum_cons, ← ih]
    exact hsplit

theorem foldl_bitCount (words : List UInt64) (count : UInt64) :
    (words.foldl (fun count word => count + bitCount word) count).toNat =
      (count.toNat + ones (value words)) % 2 ^ 64 := by
  induction words generalizing count with
  | nil => simp [Nat.mod_eq_of_lt count.toNat_lt]
  | cons word words ih =>
    rw [foldl_cons, ih, UInt64.toNat_add, bitCount_toNat, ones_value, ones_value,
      map_cons, sum_cons, Nat.mod_add_mod, add_assoc]

variable {x : Bignum}

theorem size_magnitude (hnonzero : x.magnitude ≠ 0) :
    (x.digit (sexpBignumHi x - 1)).toNat.size + (sexpBignumHi x - 1) * 64 = x.magnitude.size := by
  obtain ⟨n, hn⟩ : ∃ n, sexpBignumHi x = n + 1 :=
    ⟨sexpBignumHi x - 1, by have hone := one_le_sexpBignumHi x; omega⟩
  have hdata : x.data ≠ [] := by
    intro hnil
    exact hnonzero (by rw [Bignum.magnitude, hnil, value_nil])
  have hlen := sexpBignumHi_le_length hdata
  have hdrop := drop_sexpBignumHi x
  rw [hn] at hlen hdrop ⊢
  rw [Nat.add_sub_cancel]
  have hupper : x.magnitude / 2 ^ (64 * n) = (x.digit n).toNat := by
    rw [← base_pow_eq, Bignum.magnitude, value_div_base_pow, drop_eq_getElem_cons (by omega),
      value_cons, hdrop, mul_zero, add_zero, Bignum.digit, getD_eq_getElem _ _ (by omega)]
  have htop : x.magnitude / 2 ^ (64 * n) ≠ 0 := by
    rcases Nat.eq_zero_or_pos n with rfl | hpos
    · simpa using hnonzero
    · have hle := base_pow_hi_le_magnitude (a := x) (by omega)
      rw [hn, Nat.add_sub_cancel, base_pow_eq] at hle
      have hdiv := Nat.div_pos hle (by positivity)
      omega
  rw [size_eq_add htop, hupper, mul_comm]

/-! ## What the queries should answer -/

/-- The natural number with the bits of `n` that differ from its sign. -/
def complemented (n : ℤ) : ℕ := (if n < 0 then -n - 1 else n).toNat

variable (n : ℤ)

attribute [local simp] complemented sexpBitSetP in
theorem testBit_complemented (i : ℕ) :
    (complemented n).testBit i = true ↔ n.testBit i ≠ decide (n < 0) := by
  cases n with
  | ofNat m =>
    have hnot : ¬ Int.ofNat m < 0 := by simp
    have hbit : (Int.ofNat m).testBit i = m.testBit i := rfl
    have heq : complemented (Int.ofNat m) = m := by
      rw [complemented, if_neg hnot]
      rfl
    rw [heq, hbit, decide_eq_false hnot]
    simp
  | negSucc m =>
    have hneg : Int.negSucc m < 0 := Int.negSucc_lt_zero m
    have hbit : (Int.negSucc m).testBit i = !m.testBit i := rfl
    simp [hneg, hbit]

theorem ncard_differing : Set.ncard {i | n.testBit i ≠ decide (n < 0)} = ones (complemented n) := by
  rw [← ncard_testBit]
  congr 1
  ext i
  exact (testBit_complemented n i).symm

theorem isLeast_size : IsLeast {k : ℕ | -2 ^ k ≤ n ∧ n < 2 ^ k} (complemented n).size := by
  have hiff : ∀ k : ℕ, -2 ^ k ≤ n ∧ n < 2 ^ k ↔ (complemented n).size ≤ k := by
    intro k
    have hpos : (0 : ℤ) < 2 ^ k := by positivity
    have hcast : (complemented n : ℤ) = if n < 0 then -n - 1 else n := by
      rw [complemented, Int.toNat_of_nonneg]
      split
      · omega
      · omega
    have hsize : (complemented n).size ≤ k ↔ (complemented n : ℤ) < 2 ^ k := by
      rw [Nat.size_le]
      exact_mod_cast Iff.rfl
    rw [hsize, hcast]
    split
    · omega
    · omega
  exact ⟨(hiff _).mpr le_rfl, fun k hk => (hiff k).mp hk⟩

/-- The answers for `x` and the position `i`. -/
structure QueriesAgree (i x : ExactInt) : Prop where
  bitSet : sexpBitSetP i x = .ok (x.toInt.testBit i.toInt.toNat)
  integerLength : ∃ n : ℕ, (sexpIntegerLength x).val = n ∧
    IsLeast {n : ℕ | -2 ^ n ≤ x.toInt ∧ x.toInt < 2 ^ n} n
  bitCount : (sexpBitCount x).val = Set.ncard {j | x.toInt.testBit j ≠ decide (x.toInt < 0)}

theorem integerLength_iff (x : ExactInt) :
    (∃ n : ℕ, (sexpIntegerLength x).val = n ∧
      IsLeast {n : ℕ | -2 ^ n ≤ x.toInt ∧ x.toInt < 2 ^ n} n) ↔
    (sexpIntegerLength x).val = (complemented x.toInt).size := by
  constructor
  · rintro ⟨n, hn, hleast⟩
    rw [hn, hleast.unique (isLeast_size x.toInt)]
  · intro heq
    exact ⟨_, heq, isLeast_size x.toInt⟩

/-! ## Fixnums -/

theorem toNat_ofInt_complemented (x : Fixnum) :
    (UInt64.ofInt (if x.val < 0 then -x.val - 1 else x.val)).toNat = complemented x.val ∧
      complemented x.val < 2 ^ 62 := by
  have hbounds := x.bounds
  have hsmall : complemented x.val < 2 ^ 62 := by
    rw [complemented]
    split
    · omega
    · omega
  have hcast : (if x.val < 0 then -x.val - 1 else x.val) = (complemented x.val : ℤ) := by
    rw [complemented, Int.toNat_of_nonneg]
    split
    · omega
    · omega
  have hbase : base = 2 ^ 64 := rfl
  rw [hcast, toNat_ofInt_natCast (by omega)]
  exact ⟨rfl, hsmall⟩

theorem sexpMakeFixnum_natCast {n : ℕ} (hn : n < 2 ^ 62) : (sexpMakeFixnum (n : ℤ)).val = n := by
  refine sexpMakeFixnum_val ((inFixnumRange_iff _).mpr ?_)
  omega

theorem bitCount_fixnum (x : Fixnum) :
    (sexpBitCount (.fixnum x)).val = ones (complemented x.val) := by
  obtain ⟨hword, hsmall⟩ := toNat_ofInt_complemented x
  have hle := ones_le_of_lt hsmall
  simp only [sexpBitCount]
  rw [bitCount_toNat, hword, sexpMakeFixnum_natCast (by omega)]

theorem integerLength_fixnum (x : Fixnum) :
    (sexpIntegerLength (.fixnum x)).val = (complemented x.val).size := by
  obtain ⟨hword, hsmall⟩ := toNat_ofInt_complemented x
  have hle := Nat.size_le.mpr hsmall
  simp only [sexpIntegerLength]
  rw [integerLog2_eq_size, hword, sexpMakeFixnum_natCast (by omega)]

theorem land_shiftLeft_ne_zero (word : UInt64) {k : ℕ} (hk : k < 64) :
    word &&& ((1 : UInt64) <<< UInt64.ofNat k) ≠ 0 ↔ word.toNat.testBit k = true := by
  have hmod : (UInt64.ofNat k).toNat % 64 = k := by
    rw [UInt64.toNat_ofNat']
    omega
  have hpow : ((1 : UInt64) <<< UInt64.ofNat k).toNat = 2 ^ k := by
    have hlt : 2 ^ k < 2 ^ 64 := Nat.pow_lt_pow_right (by decide) hk
    rw [UInt64.toNat_shiftLeft, hmod, Nat.shiftLeft_eq]
    simpa using Nat.mod_eq_of_lt hlt
  rw [ne_eq, ← UInt64.toNat_inj, UInt64.toNat_and, hpow, Nat.and_two_pow]
  cases word.toNat.testBit k with
  | true => simp
  | false => simp

theorem testBit_ofInt_fixnum (x : Fixnum) {k : ℕ} (hk : k < 64) :
    (UInt64.ofInt x.val).toNat.testBit k = x.val.testBit k := by
  rcases lt_or_ge x.val 0 with hneg | hnonneg
  · obtain ⟨m, hm⟩ := Int.eq_ofNat_of_zero_le (show 0 ≤ -x.val by omega)
    have hbounds := x.bounds
    have hval : x.val = -(m : ℤ) := by omega
    have hword : (UInt64.ofInt x.val).toNat = 2 ^ 64 - m := by
      have hemod : x.val % 2 ^ 64 = ((2 ^ 64 - m : ℕ) : ℤ) := by omega
      rw [UInt64.ofInt, hemod, Int.toNat_natCast, UInt64.toNat_ofNat']
      omega
    rw [hword, hval, testBit_two_pow_sub (by omega) (by omega) hk]
  · exact testBit_ofInt hnonneg k

variable {index : Fixnum}

theorem bitSet_fixnum (hpos : 0 ≤ index.val) (x : Fixnum) :
    sexpBitSetP (.fixnum index) (.fixnum x) = .ok (x.val.testBit index.val.toNat) := by
  obtain ⟨k, hk⟩ := Int.eq_ofNat_of_zero_le hpos
  simp only [sexpBitSetP, hk, Int.toNat_natCast]
  rw [if_neg (by omega)]
  congr 1
  by_cases hsmall : k < 64
  · have hshift : UInt64.ofInt (k : ℤ) = UInt64.ofNat k := by
      have hbase : base = 2 ^ 64 := rfl
      rw [← UInt64.toNat_inj, toNat_ofInt_natCast (by omega), UInt64.toNat_ofNat']
      omega
    have hiff := land_shiftLeft_ne_zero (UInt64.ofInt x.val) hsmall
    rw [testBit_ofInt_fixnum x hsmall] at hiff
    simp only [hshift, Nat.cast_lt_ofNat, hsmall, if_true, hiff, Bool.decide_eq_true]
  · have hhigh := x.testBit_high (i := k) (by omega)
    simp only [Nat.cast_lt_ofNat, hsmall, if_false, hhigh]

/-! ## Bignums -/

theorem complemented_bignum (x : Bignum) :
    complemented x.toInt = if x.sign = .neg then x.magnitude - 1 else x.magnitude := by
  rw [complemented, Bignum.toInt]
  cases x.sign with
  | pos =>
    rw [Sign.toInt_pos, if_neg (by omega), if_neg (by decide)]
    omega
  | neg =>
    rw [Sign.toInt_neg, if_pos rfl]
    split
    · omega
    · omega

theorem bitSet_bignum (hpos : 0 ≤ index.val) (x : Bignum) :
    sexpBitSetP (.fixnum index) (.bignum x) =
      .ok (if index.val < 64 * (x.data.length : ℤ) then x.magnitude.testBit index.val.toNat
        else decide (x.sign = .neg)) := by
  obtain ⟨k, hk⟩ := Int.eq_ofNat_of_zero_le hpos
  simp only [sexpBitSetP, hk, Int.toNat_natCast]
  rw [if_neg (by omega)]
  congr 1
  have hrem : k - k / 64 * 64 = k % 64 := by omega
  rw [hrem]
  by_cases hlen : k / 64 < x.data.length
  · have hiff := land_shiftLeft_ne_zero (x.digit (k / 64)) (Nat.mod_lt k (by decide : 0 < 64))
    have hbit : (x.digit (k / 64)).toNat.testBit (k % 64) = x.magnitude.testBit k :=
      (testBit_value x.data k).symm
    rw [hbit] at hiff
    have hindex : (k : ℤ) < 64 * (x.data.length : ℤ) := by omega
    simp only [hlen, hindex, if_true, hiff, Bool.decide_eq_true]
  · have hindex : ¬ (k : ℤ) < 64 * (x.data.length : ℤ) := by omega
    simp only [hlen, hindex, if_false]

theorem bitSet_bignum_iff (hpos : 0 ≤ index.val) (hx : (ExactInt.bignum x).Canonical) :
    sexpBitSetP (.fixnum index) (.bignum x) = .ok (x.toInt.testBit index.val.toNat) ↔
      (x.sign = .neg → 64 * (x.data.length : ℤ) ≤ index.val ∨
        2 ^ index.val.toNat ∣ x.magnitude) := by
  obtain ⟨hnonzero, _, _⟩ := Bignum.of_canonical hx
  have hlt := value_lt_two_pow x.data
  rw [bitSet_bignum hpos, Except.ok.injEq]
  obtain ⟨k, hk⟩ := Int.eq_ofNat_of_zero_le hpos
  rw [hk, Int.toNat_natCast]
  have habove : ¬ (k : ℤ) < 64 * (x.data.length : ℤ) → x.magnitude < 2 ^ k := by
    intro hindex
    exact hlt.trans_le (Nat.pow_le_pow_right (by decide) (by omega))
  cases hsign : x.sign with
  | pos =>
    rw [toInt_of_pos hsign, testBit_natCast]
    simp only [reduceCtorEq, false_imp_iff, iff_true, decide_false]
    split
    · rfl
    · rename_i hindex
      exact (Nat.testBit_lt_two_pow (habove hindex)).symm
  | neg =>
    have hneg : x.toInt = -(x.magnitude : ℤ) := by
      rw [Bignum.toInt, hsign, Sign.toInt_neg, neg_one_mul]
    have hmag := Nat.pos_of_ne_zero hnonzero
    rw [hneg, testBit_neg hmag]
    simp only [decide_true, true_imp_iff]
    split
    · rename_i hindex
      rw [testBit_eq_not_pred_iff hmag]
      exact ⟨.inr, fun h => h.resolve_left (by omega)⟩
    · rename_i hindex
      have hsmall := habove hindex
      rw [Nat.testBit_lt_two_pow (show x.magnitude - 1 < 2 ^ k by omega)]
      exact iff_of_true rfl (.inl (by omega))

theorem sexpMakeFixnum_natCast_iff {n s : ℕ} (hle : s ≤ n) (hn : n ≤ s + 1) :
    (sexpMakeFixnum (n : ℤ)).val = s ↔ n < 2 ^ 62 ∧ n = s := by
  constructor
  · intro heq
    have hbounds := (sexpMakeFixnum (n : ℤ)).bounds
    rw [heq] at hbounds
    by_cases hsmall : n < 2 ^ 62
    · rw [sexpMakeFixnum_natCast hsmall] at heq
      exact ⟨hsmall, by exact_mod_cast heq⟩
    · -- the only length left is one that comes out negative
      have hall : n = 2 ^ 62 := by omega
      rw [hall] at heq
      have hval : (sexpMakeFixnum ((2 ^ 62 : ℕ) : ℤ)).val = -2 ^ 62 := by decide
      omega
  · rintro ⟨hsmall, rfl⟩
    exact sexpMakeFixnum_natCast hsmall

theorem integerLength_bignum_iff (hx : (ExactInt.bignum x).Canonical) :
    (sexpIntegerLength (.bignum x)).val = (complemented x.toInt).size ↔
      x.magnitude.size < 2 ^ 62 ∧ (x.sign = .neg → ¬ ∃ k, x.magnitude = 2 ^ k) := by
  obtain ⟨hnonzero, _, _⟩ := Bignum.of_canonical hx
  have hmag := Nat.pos_of_ne_zero hnonzero
  have hcode : sexpIntegerLength (.bignum x) = sexpMakeFixnum (x.magnitude.size : ℕ) := by
    simp only [sexpIntegerLength]
    rw [integerLog2_eq_size, ← size_magnitude hnonzero]
    push_cast
    rfl
  rw [hcode, complemented_bignum]
  cases x.sign with
  | pos =>
    rw [if_neg (by decide), sexpMakeFixnum_natCast_iff le_rfl (Nat.le_succ _)]
    simp
  | neg =>
    have hpred : x.magnitude.size ≤ (x.magnitude - 1).size + 1 := by
      rw [Nat.size_le, pow_succ]
      have hlt := Nat.lt_size_self (x.magnitude - 1)
      omega
    rw [if_pos rfl, sexpMakeFixnum_natCast_iff (Nat.size_le_size (Nat.sub_le _ 1)) hpred,
      size_pred_iff hmag]
    simp

theorem bitCount_bignum_iff (hx : (ExactInt.bignum x).Canonical)
    (hsize : x.magnitude.size < 2 ^ 62) :
    (sexpBitCount (.bignum x)).val = ones (complemented x.toInt) ↔
      (x.sign = .neg → x.magnitude % 4 = 2) := by
  obtain ⟨hnonzero, _, _⟩ := Bignum.of_canonical hx
  have hmag := Nat.pos_of_ne_zero hnonzero
  have hones : ones x.magnitude < 2 ^ 62 :=
    (ones_le_of_lt (Nat.lt_size_self x.magnitude)).trans_lt hsize
  have hcode : (sexpBitCount (.bignum x)).val = ones x.magnitude := by
    simp only [sexpBitCount]
    have hzero : (0 : UInt64).toNat = 0 := rfl
    rw [foldl_bitCount, hzero, zero_add, ← Bignum.magnitude, Nat.mod_eq_of_lt (by omega),
      sexpMakeFixnum_natCast hones]
  rw [hcode, complemented_bignum, Nat.cast_inj]
  cases x.sign with
  | pos => simp
  | neg =>
    rw [if_pos rfl, ones_eq_ones_pred_iff hmag]
    simp

/-! ## `bitwise-not` -/

/-- `bitwise-not`, which subtracts from -1. -/
def bitwiseNot (i : ExactInt) : ExactInt := subInteger (.fixnum (sexpMakeFixnum (-1))) i

theorem bitwiseNot_toInt (i : ExactInt) : (bitwiseNot i).toInt = -1 - i.toInt := by
  have hval : (sexpMakeFixnum (-1)).val = -1 := by decide
  rw [bitwiseNot, (subInteger_toInt_iff _ i).mpr ?_, ExactInt.toInt_fixnum, hval]
  cases i with
  | bignum b => trivial
  | fixnum n =>
    have hbounds := n.bounds
    rw [SubExact, hval, inFixnumRange_iff]
    omega

theorem testBit_not (i : ℕ) : (-1 - n).testBit i = !n.testBit i := by
  have hlnot : Int.lnot n = -1 - n := by
    cases n with
    | ofNat m =>
      rw [Int.lnot, Int.negSucc_eq]
      show _ = -1 - (m : ℤ)
      omega
    | negSucc m =>
      rw [Int.lnot, Int.negSucc_eq]
      omega
  rw [← hlnot, Int.testBit_lnot]

theorem complemented_not : complemented (-1 - n) = complemented n := by
  unfold complemented
  split
  · rw [if_neg (by omega)]
    omega
  · rw [if_pos (by omega)]
    omega

/-! ## The condition -/

/-- The operands for which all three answers are right. -/
structure QueriesSafe (i x : ExactInt) : Prop where
  index : ∃ index, i = .fixnum index
  size : x.toInt.natAbs.size < 2 ^ 62
  negative : ∀ b, x = .bignum b → b.toInt < 0 →
    (64 * (b.data.length : ℤ) ≤ i.toInt ∨ 2 ^ i.toInt.toNat ∣ b.toInt) ∧ b.toInt % 4 = 2

theorem queriesAgree_iff_safe {i : ExactInt} (hi : 0 ≤ i.toInt) {x : ExactInt}
    (hx : x.Canonical) : QueriesAgree i x ↔ QueriesSafe i x := by
  have hagree : QueriesAgree i x ↔ sexpBitSetP i x = .ok (x.toInt.testBit i.toInt.toNat) ∧
      (sexpIntegerLength x).val = (complemented x.toInt).size ∧
        (sexpBitCount x).val = ones (complemented x.toInt) := by
    rw [← ncard_differing, ← integerLength_iff]
    exact ⟨fun h => ⟨h.bitSet, h.integerLength, h.bitCount⟩, fun h => ⟨h.1, h.2.1, h.2.2⟩⟩
  rw [hagree]
  cases i with
  | bignum index =>
    refine iff_of_false (fun h => ?_) fun h => ?_
    · exact absurd h.1 (by simp [sexpBitSetP])
    · obtain ⟨index, hindex⟩ := h.index
      cases hindex
  | fixnum index =>
    cases x with
    | fixnum x =>
      refine iff_of_true ⟨bitSet_fixnum hi x, integerLength_fixnum x, bitCount_fixnum x⟩ ?_
      refine ⟨⟨index, rfl⟩, ?_, fun b hb => by cases hb⟩
      have hsize : x.val.natAbs.size ≤ 63 :=
        Nat.size_le.mpr (x.natAbs_le.trans_lt (by decide))
      exact hsize.trans_lt (by decide)
    | bignum x =>
      obtain ⟨hnonzero, _, hneg⟩ := Bignum.of_canonical hx
      have hwide : 2 ^ 62 ≤ x.magnitude := hx.wide
      have habs : x.toInt.natAbs = x.magnitude := x.natAbs_toInt
      have hdvd : ∀ k : ℕ, (2 ^ k : ℤ) ∣ x.toInt ↔ 2 ^ k ∣ x.magnitude := by
        intro k
        rw [← habs, ← Int.natAbs_dvd_natAbs, Int.natAbs_pow]
        rfl
      have hmod : x.sign = .neg → (x.toInt % 4 = 2 ↔ x.magnitude % 4 = 2) := by
        intro hsign
        rw [Bignum.toInt, hsign, Sign.toInt_neg]
        omega
      simp only [ExactInt.toInt_bignum, ExactInt.toInt_fixnum] at hi ⊢
      rw [bitSet_bignum_iff hi hx, integerLength_bignum_iff hx]
      constructor
      · rintro ⟨hbit, ⟨hsize, _⟩, hcount⟩
        rw [bitCount_bignum_iff hx hsize] at hcount
        refine ⟨⟨index, rfl⟩, by rwa [ExactInt.toInt_bignum, habs], ?_⟩
        intro b hb hless
        cases hb
        have hsign := hneg.mpr hless
        rw [ExactInt.toInt_fixnum, hdvd, hmod hsign]
        exact ⟨hbit hsign, hcount hsign⟩
      · intro hsafe
        have hsize := hsafe.size
        rw [ExactInt.toInt_bignum, habs] at hsize
        have hall : x.sign = .neg → (64 * (x.data.length : ℤ) ≤ index.val ∨
            2 ^ index.val.toNat ∣ x.magnitude) ∧ x.magnitude % 4 = 2 := by
          intro hsign
          have hcond := hsafe.negative x rfl (hneg.mp hsign)
          rwa [ExactInt.toInt_fixnum, hdvd, hmod hsign] at hcond
        refine ⟨fun hsign => (hall hsign).1, ⟨hsize, fun hsign => ?_⟩,
          (bitCount_bignum_iff hx hsize).mpr fun hsign => (hall hsign).2⟩
        -- no large power of two leaves 2 when divided by 4
        rintro ⟨k, hk⟩
        have htwo := (hall hsign).2
        have hfour : 4 ∣ x.magnitude := by
          rw [hk]
          refine (pow_dvd_pow 2 (?_ : 2 ≤ k) : 2 ^ 2 ∣ 2 ^ k)
          by_contra hsmall
          have hle : 2 ^ k ≤ 2 ^ 2 := Nat.pow_le_pow_right (by decide) (by omega)
          omega
        omega

/-- The three queries are right exactly for safe operands, and then consistent with
`bitwise-not`. -/
theorem queries_iff {i : ExactInt} (hi : 0 ≤ i.toInt) {x : ExactInt} (hx : x.Canonical) :
    (QueriesAgree i x ↔ QueriesSafe i x) ∧
      (QueriesSafe i x → QueriesSafe i (bitwiseNot x) →
        sexpBitCount (bitwiseNot x) = sexpBitCount x ∧
          sexpIntegerLength (bitwiseNot x) = sexpIntegerLength x ∧
            sexpBitSetP i (bitwiseNot x) = (sexpBitSetP i x).map not) := by
  refine ⟨queriesAgree_iff_safe hi hx, fun hsafe hnot => ?_⟩
  have hcanonical : (bitwiseNot x).Canonical := subInteger_canonical _ _
  have hagree := (queriesAgree_iff_safe hi hx).mpr hsafe
  have hagree' := (queriesAgree_iff_safe hi hcanonical).mpr hnot
  have hcomplemented : complemented (bitwiseNot x).toInt = complemented x.toInt := by
    rw [bitwiseNot_toInt, complemented_not]
  refine ⟨Fixnum.ext ?_, Fixnum.ext ?_, ?_⟩
  · rw [hagree.bitCount, hagree'.bitCount, ncard_differing, ncard_differing, hcomplemented]
  · rw [(integerLength_iff x).mp hagree.integerLength,
      (integerLength_iff _).mp hagree'.integerLength, hcomplemented]
  · rw [hagree.bitSet, hagree'.bitSet, bitwiseNot_toInt, testBit_not]
    rfl

/-- Position 1 of `-(2 ^ 64 + 2)`, and of its complement. -/
theorem queries_large :
    QueriesAgree (.fixnum sexpOne) (.bignum ⟨.neg, [2, 1]⟩) ∧
      sexpBitSetP (.fixnum sexpOne) (bitwiseNot (.bignum ⟨.neg, [2, 1]⟩)) =
        (sexpBitSetP (.fixnum sexpOne) (.bignum ⟨.neg, [2, 1]⟩)).map not := by
  have hsize : ∀ n : ℕ, n < 2 ^ 65 → n.size < 2 ^ 62 := fun n hn =>
    (Nat.size_le.mpr hn).trans_lt (by decide)
  have hsafe : QueriesSafe (.fixnum sexpOne) (.bignum ⟨.neg, [2, 1]⟩) :=
    ⟨⟨_, rfl⟩, hsize _ (by decide), fun b hb _ => by cases hb; decide⟩
  have hnot : QueriesSafe (.fixnum sexpOne) (bitwiseNot (.bignum ⟨.neg, [2, 1]⟩)) := by
    refine ⟨⟨_, rfl⟩, hsize _ (by decide), fun b hb hneg => ?_⟩
    have htoInt := bitwiseNot_toInt (.bignum ⟨.neg, [2, 1]⟩)
    rw [hb, ExactInt.toInt_bignum] at htoInt
    rw [htoInt] at hneg
    exact absurd hneg (by decide)
  have hiff := queries_iff (i := .fixnum sexpOne) (by decide)
    (x := .bignum ⟨.neg, [2, 1]⟩) (by decide)
  exact ⟨hiff.1.mpr hsafe, (hiff.2 hsafe hnot).2.2⟩

/-- `(bit-count (- (expt 2 64)))` is 1 instead of 64. -/
theorem queries_power : ¬ QueriesAgree (.fixnum sexpZero) (.bignum ⟨.neg, [0, 1]⟩) := by
  intro hagree
  have hsafe := (queriesAgree_iff_safe (i := .fixnum sexpZero) (by decide) (by decide)).mp hagree
  exact absurd (hsafe.negative _ rfl (by decide)).2 (by decide)

end ChibiScheme
