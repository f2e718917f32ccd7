import ChibiScheme.Numeric.BignumAdd

/-!
# Multiplication of bignums

One-word multiplication is a carry chain over 128-bit intermediates.  The
general product is Karatsuba's: both operands are split at half the length of
the shorter one, three products of the pieces are formed, and the result is put
together from shifted copies.

The digit counts of `(a1 + a0)(b1 + b0)` need not be smaller than those of
`a * b` (a two-digit operand can give a two-digit sum), so the recursion is
justified by the magnitudes: the pieces of a split, and their sum, are smaller
than what was split.
-/

namespace ChibiScheme

open Limbs

/-! ## Double words -/

/-- `sexp_luint_t`, an unsigned 128-bit integer. -/
abbrev LUInt := BitVec 128

/-- `luint_from_uint` -/
def luintFromUint (word : UInt64) : LUInt := BitVec.ofNat 128 word.toNat

/-- `luint_to_uint`: the low word. -/
def luintToUint (n : LUInt) : UInt64 := UInt64.ofNat n.toNat

/-- `luint_add` -/
def luintAdd (m n : LUInt) : LUInt := m + n

/-- `luint_sub` -/
def luintSub (m n : LUInt) : LUInt := m - n

/-- `luint_mul_uint` -/
def luintMulUint (n : LUInt) (word : UInt64) : LUInt := n * luintFromUint word

/-- `luint_shl` -/
def luintShl (n : LUInt) (bits : ℕ) : LUInt := n <<< bits

/-- `luint_shr` -/
def luintShr (n : LUInt) (bits : ℕ) : LUInt := n >>> bits

/-- `luint_div` -/
def luintDiv (m n : LUInt) : LUInt := m / n

/-- `luint_div_uint` -/
def luintDivUint (n : LUInt) (word : UInt64) : LUInt := luintDiv n (luintFromUint word)

theorem luint_toNat_lt (n : LUInt) : n.toNat < base ^ 2 := n.isLt

@[simp] theorem luintFromUint_toNat (word : UInt64) : (luintFromUint word).toNat = word.toNat := by
  have hword := word.toNat_lt
  simp only [luintFromUint, BitVec.toNat_ofNat]
  omega

theorem luintToUint_toNat (n : LUInt) : (luintToUint n).toNat = n.toNat % base := by
  rw [luintToUint, UInt64.toNat_ofNat']
  rfl

variable {n : LUInt}

theorem luintToUint_toNat_of_lt (hlt : n.toNat < base) : (luintToUint n).toNat = n.toNat := by
  rw [luintToUint_toNat, Nat.mod_eq_of_lt hlt]

theorem luintAdd_toNat {m : LUInt} (hlt : m.toNat + n.toNat < base ^ 2) :
    (luintAdd m n).toNat = m.toNat + n.toNat := by
  rw [luintAdd, BitVec.toNat_add]
  exact Nat.mod_eq_of_lt hlt

theorem luintSub_toNat {m : LUInt} (hle : n.toNat ≤ m.toNat) :
    (luintSub m n).toNat = m.toNat - n.toNat :=
  BitVec.toNat_sub_of_le hle

theorem luintMulUint_toNat {word : UInt64} (hlt : n.toNat * word.toNat < base ^ 2) :
    (luintMulUint n word).toNat = n.toNat * word.toNat := by
  rw [luintMulUint, BitVec.toNat_mul, luintFromUint_toNat]
  exact Nat.mod_eq_of_lt hlt

theorem luintShl_toNat {bits : ℕ} (hlt : n.toNat * 2 ^ bits < base ^ 2) :
    (luintShl n bits).toNat = n.toNat * 2 ^ bits := by
  rw [luintShl, BitVec.toNat_shiftLeft, Nat.shiftLeft_eq]
  exact Nat.mod_eq_of_lt hlt

theorem luintShr_toNat (n : LUInt) (bits : ℕ) : (luintShr n bits).toNat = n.toNat / 2 ^ bits := by
  rw [luintShr, BitVec.toNat_ushiftRight, Nat.shiftRight_eq_div_pow]

theorem luintDiv_toNat (m n : LUInt) : (luintDiv m n).toNat = m.toNat / n.toNat :=
  BitVec.toNat_udiv

theorem luintDivUint_toNat (n : LUInt) (word : UInt64) :
    (luintDivUint n word).toNat = n.toNat / word.toNat := by
  rw [luintDivUint, luintDiv_toNat, luintFromUint_toNat]

/-! ## Multiplication by one word -/

/-- One pass of the loop of `sexp_bignum_fxmul`. -/
def fxmulBody (b word carry : UInt64) : UInt64 × UInt64 :=
  let n := luintAdd (luintMulUint (luintFromUint word) b) (luintFromUint carry)
  (luintToUint n, luintToUint (luintShr n 64))

/-- The stores of `sexp_bignum_fxmul`: the product words from index `offset` on,
then the last carry in the next digit, for which the object may have to grow. -/
def fxmulStore (d : Bignum) (words : List UInt64) (carry : UInt64) (offset : ℕ) : Bignum :=
  let top := words.length + offset
  let d := { d with data := d.data.take offset ++ words ++ d.data.drop top }
  if carry ≠ 0 then
    (if d.data.length ≤ top then sexpCopyBignum d (top + 1) else d).setDigit top carry
  else d

/-- `sexp_bignum_fxmul`: the magnitude times a word, stored `offset` digits up. -/
def sexpBignumFxmul (d : Option Bignum) (a : Bignum) (b : UInt64) (offset : ℕ) : Bignum :=
  let len := a.data.length
  let d := match d with
    | some d => if d.data.length < len + offset then sexpMakeBignum (len + offset) else d
    | none => sexpMakeBignum (len + offset)
  let product := chain (fxmulBody b) a.data 0
  fxmulStore d product.1 product.2 offset

private theorem fxmulBody_value (b word carry : UInt64) :
    ((fxmulBody b word carry).1.toNat : ℤ) + base * ((fxmulBody b word carry).2.toNat : ℤ) =
      (word.toNat : ℤ) * b.toNat + carry.toNat := by
  have hword := toNat_lt_base word
  have hb := toNat_lt_base b
  have hcarry := toNat_lt_base carry
  have hproduct : word.toNat * b.toNat + carry.toNat < base ^ 2 := by nlinarith
  have hmul : (luintMulUint (luintFromUint word) b).toNat = word.toNat * b.toNat := by
    rw [luintMulUint_toNat] <;> rw [luintFromUint_toNat]
    omega
  have hsum : (luintAdd (luintMulUint (luintFromUint word) b) (luintFromUint carry)).toNat =
      word.toNat * b.toNat + carry.toNat := by
    rw [luintAdd_toNat] <;> rw [hmul, luintFromUint_toNat]
    exact hproduct
  have hhigh : (word.toNat * b.toNat + carry.toNat) / base < base := by
    rw [Nat.div_lt_iff_lt_mul base_pos, ← pow_two]
    exact hproduct
  simp only [fxmulBody, luintToUint_toNat, luintShr_toNat, hsum]
  rw [show (2 : ℕ) ^ 64 = base from rfl, Nat.mod_eq_of_lt hhigh]
  have hdiv := Nat.mod_add_div (word.toNat * b.toNat + carry.toNat) base
  exact_mod_cast hdiv

private theorem fxmul_chain (a : Bignum) (b : UInt64) :
    (value (chain (fxmulBody b) a.data 0).1 : ℤ) +
        (base : ℤ) ^ a.data.length * ((chain (fxmulBody b) a.data 0).2.toNat : ℤ) =
      a.magnitude * b.toNat := by
  have hchain := (chain_value (fxmulBody b)
    (fun word => (word.toNat : ℤ) * b.toNat)
    (fun carry => (carry.toNat : ℤ)) (fun _ => True) a.data 0 trivial
    (fun word _ carry _ => ⟨trivial, fxmulBody_value b word carry⟩)).2
  rw [weigh_mul, weigh_toNat] at hchain
  simpa [Bignum.magnitude] using hchain

private theorem fxmulStore_magnitude {d : Bignum} {words : List UInt64} {carry : UInt64}
    (hlength : d.data.length = words.length) :
    (fxmulStore d words carry 0).magnitude = value words + base ^ words.length * carry.toNat := by
  have hdrop : d.data.drop words.length = [] := List.drop_eq_nil_of_le hlength.le
  simp only [fxmulStore, List.take_zero, List.nil_append, Nat.add_zero, hdrop, List.append_nil,
    le_refl, if_true]
  split
  · rw [value_copy_setDigit, Bignum.value_digits, List.take_length]
  · rename_i hzero
    rw [not_not] at hzero
    simp [hzero, Bignum.magnitude]

variable {a : Bignum}

theorem sexpBignumFxmul_magnitude {d : Option Bignum} {b : UInt64} (hd : d = none ∨ d = some a) :
    (sexpBignumFxmul d a b 0).magnitude = a.magnitude * b.toNat := by
  have hvalue := fxmul_chain a b
  rw [← length_chain (fxmulBody b) a.data 0] at hvalue
  unfold sexpBignumFxmul
  rcases hd with rfl | rfl
  · simp only
    rw [fxmulStore_magnitude (by simp [sexpMakeBignum])]
    exact_mod_cast hvalue
  · simp only [Nat.add_zero, lt_irrefl, if_false]
    rw [fxmulStore_magnitude (by simp)]
    exact_mod_cast hvalue

theorem sexpBignumFxmul_sign (a : Bignum) (b : UInt64) :
    (sexpBignumFxmul (some a) a b 0).sign = a.sign := by
  simp only [sexpBignumFxmul, fxmulStore, Nat.add_zero, lt_irrefl, if_false]
  split
  · split <;> simp [Bignum.setDigit, sexpCopyBignum]
  · rfl

/-! ## Karatsuba multiplication -/

/-- `sexp_bignum_split`: the digits below index `k`, and those from `k` on. -/
def sexpBignumSplit (a : Bignum) (k : ℕ) : Bignum × Bignum :=
  let alen := sexpBignumHi a
  (⟨.pos, a.digits k⟩, ⟨.pos, (a.digits alen).drop k ++ [0]⟩)

/-- `sexp_bignum_shift`: move the digits up by `k`. -/
def sexpBignumShift (a : Bignum) (k : ℕ) : Bignum :=
  ⟨.pos, List.replicate k 0 ++ a.digits (sexpBignumHi a) ++ [0]⟩

variable {k : ℕ}

theorem sexpBignumSplit_magnitude (a : Bignum) (hk : k ≤ sexpBignumHi a) :
    a.magnitude =
      (sexpBignumSplit a k).1.magnitude + base ^ k * (sexpBignumSplit a k).2.magnitude := by
  have hsplit := value_take_add_drop (a.digits (sexpBignumHi a)) (by simpa using hk)
  rw [Bignum.value_digits, value_take_sexpBignumHi, a.take_digits hk] at hsplit
  simpa [sexpBignumSplit, Bignum.magnitude, value_append] using hsplit

@[simp] theorem sexpBignumShift_magnitude (a : Bignum) (k : ℕ) :
    (sexpBignumShift a k).magnitude = base ^ k * a.magnitude := by
  have hvalue : value (a.data.take (sexpBignumHi a)) = a.magnitude := value_take_sexpBignumHi a
  simp [sexpBignumShift, Bignum.magnitude, value_append] at hvalue ⊢
  exact .inl hvalue

private theorem split_high_pos (hpos : 1 ≤ k) (hk : k < sexpBignumHi a) :
    0 < (sexpBignumSplit a k).2.magnitude := by
  by_contra hzero
  have hsplit := sexpBignumSplit_magnitude a hk.le
  have hlow : (sexpBignumSplit a k).1.magnitude < base ^ k := by
    have hlt := value_lt (a.digits k)
    rwa [Bignum.length_digits] at hlt
  have hhigh := base_pow_hi_le_magnitude (a := a) (by omega)
  have hpow := Nat.pow_le_pow_right base_pos (show k ≤ sexpBignumHi a - 1 by omega)
  rw [Nat.eq_zero_of_not_pos hzero] at hsplit
  omega

private theorem split_lt (hpos : 1 ≤ k) (hk : k < sexpBignumHi a) :
    (sexpBignumSplit a k).1.magnitude + (sexpBignumSplit a k).2.magnitude < a.magnitude := by
  have hsplit := sexpBignumSplit_magnitude a hk.le
  have hhigh := split_high_pos hpos hk
  have hpow : 2 ≤ base ^ k := by
    calc 2 ≤ base ^ 1 := by decide
      _ ≤ base ^ k := Nat.pow_le_pow_right base_pos hpos
  nlinarith

private theorem add_split_magnitude (a : Bignum) (k : ℕ) :
    (sexpBignumAdd none (sexpBignumSplit a k).2 (sexpBignumSplit a k).1).magnitude =
      (sexpBignumSplit a k).2.magnitude + (sexpBignumSplit a k).1.magnitude := by
  have hsame : (sexpBignumSplit a k).2.sign = (sexpBignumSplit a k).1.sign := rfl
  rw [sexpBignumAdd, if_pos hsame, Bignum.magnitude_withSign,
    sexpBignumAddDigits_magnitude (.inl rfl)]

/-- The operand with more digits; the first one when they have equally many. -/
def longer (left right : Bignum) : Bignum :=
  if sexpBignumHi left < sexpBignumHi right then right else left

/-- The operand that is not the longer one. -/
def shorter (left right : Bignum) : Bignum :=
  if sexpBignumHi left < sexpBignumHi right then left else right

variable (left right : Bignum)

private theorem shorter_hi_le :
    sexpBignumHi (shorter left right) ≤ sexpBignumHi (longer left right) := by
  unfold shorter longer
  split <;> omega

private theorem longer_add_shorter :
    (longer left right).magnitude + (shorter left right).magnitude =
      left.magnitude + right.magnitude := by
  unfold shorter longer
  split <;> omega

/-- What the recursion of `sexp_bignum_mul` relies on: splitting both operands at
half the length of the shorter one makes both smaller. -/
private theorem mul_split_lt (hlen : sexpBignumHi (shorter left right) ≠ 1) :
    let k := sexpBignumHi (shorter left right) / 2
    let a := sexpBignumSplit (longer left right) k
    let b := sexpBignumSplit (shorter left right) k
    (a.1.magnitude + a.2.magnitude) + (b.1.magnitude + b.2.magnitude) <
      left.magnitude + right.magnitude := by
  intro k a b
  have hone := one_le_sexpBignumHi (shorter left right)
  have hle := shorter_hi_le left right
  have ha := split_lt (a := longer left right) (k := k) (by omega) (by omega)
  have hb := split_lt (a := shorter left right) (k := k) (by omega) (by omega)
  have htotal := longer_add_shorter left right
  simp only [a, b]
  omega

/-- `sexp_bignum_mul` into a new object. -/
def sexpBignumMul (left right : Bignum) : Bignum :=
  let a := longer left right
  let b := shorter left right
  let blen := sexpBignumHi b
  if hlen : blen = 1 then
    (sexpBignumFxmul none a (b.digit 0) 0).withSign (a.sign.mul b.sign)
  else
    let k := blen / 2
    let a0 := (sexpBignumSplit a k).1
    let a1 := (sexpBignumSplit a k).2
    let b0 := (sexpBignumSplit b k).1
    let b1 := (sexpBignumSplit b k).2
    let z1 := sexpBignumMul (sexpBignumAdd none b1 b0) (sexpBignumAdd none a1 a0)
    let z0 := sexpBignumMul a0 b0
    let z2 := sexpBignumMul a1 b1
    let z1 := sexpBignumSub none z1 z0
    let z1 := sexpBignumSub none z1 z2
    let z2 := sexpBignumShift z2 (2 * k)
    let z1 := sexpBignumShift z1 k
    let z1 := sexpBignumAdd (some z1) z1 z0
    let z1 := sexpBignumAdd (some z1) z1 z2
    z1.withSign (a.sign.mul b.sign)
termination_by left.magnitude + right.magnitude
decreasing_by
  · have hlt := mul_split_lt left right hlen
    simp only [add_split_magnitude]
    omega
  · have hlt := mul_split_lt left right hlen
    omega
  · have hlt := mul_split_lt left right hlen
    omega

theorem sexpBignumMul_sign :
    (sexpBignumMul left right).sign = (longer left right).sign.mul (shorter left right).sign := by
  rw [sexpBignumMul]
  split <;> rfl

private theorem sexpBignumMul_sign_pos {left right : Bignum} (hleft : left.sign = .pos)
    (hright : right.sign = .pos) : (sexpBignumMul left right).sign = .pos := by
  rw [sexpBignumMul_sign]
  unfold longer shorter
  split <;> rw [hleft, hright] <;> rfl

private theorem toInt_eq_magnitude (hsign : a.sign = .pos) : a.toInt = a.magnitude := by
  rw [Bignum.toInt, hsign, Sign.toInt_pos, one_mul]

private theorem add_inPlace_magnitude {b : Bignum} (hsame : a.sign = b.sign) :
    (sexpBignumAdd (some a) a b).magnitude = a.magnitude + b.magnitude := by
  rw [sexpBignumAdd, if_pos hsame, Bignum.magnitude_withSign,
    sexpBignumAddDigits_magnitude (.inr rfl)]

private theorem assemble_magnitude {z0 z1 z2 : Bignum} (cross : ℕ) (hz0 : z0.sign = .pos)
    (hz1 : z1.sign = .pos) (hz2 : z2.sign = .pos)
    (hcross : z1.magnitude = cross + z0.magnitude + z2.magnitude) :
    let middle := sexpBignumShift (sexpBignumSub none (sexpBignumSub none z1 z0) z2) k
    let partSum := sexpBignumAdd (some middle) middle z0
    (sexpBignumAdd (some partSum) partSum (sexpBignumShift z2 (2 * k))).magnitude =
      base ^ k * cross + z0.magnitude + base ^ (2 * k) * z2.magnitude := by
  intro middle partSum
  have hmiddle : middle.magnitude = base ^ k * cross := by
    have hdiff : (sexpBignumSub none (sexpBignumSub none z1 z0) z2).toInt = cross := by
      rw [sexpBignumSub_toInt, sexpBignumSub_toInt, toInt_eq_magnitude hz0, toInt_eq_magnitude hz1,
        toInt_eq_magnitude hz2, hcross]
      push_cast
      ring
    rw [sexpBignumShift_magnitude, ← Bignum.natAbs_toInt, hdiff, Int.natAbs_natCast]
  have hpart : partSum.sign = .pos := by
    simp only [partSum, sexpBignumAdd, hz0, if_pos (show middle.sign = .pos from rfl)]
    rfl
  rw [add_inPlace_magnitude hpart, add_inPlace_magnitude hz0.symm, hmiddle,
    sexpBignumShift_magnitude]

theorem sexpBignumMul_magnitude :
    (sexpBignumMul left right).magnitude = left.magnitude * right.magnitude := by
  induction hsize : left.magnitude + right.magnitude using Nat.strong_induction_on
    generalizing left right with
  | _ size ih =>
    have hproduct : (longer left right).magnitude * (shorter left right).magnitude =
        left.magnitude * right.magnitude := by
      unfold longer shorter
      split
      · exact Nat.mul_comm _ _
      · rfl
    rw [sexpBignumMul, ← hproduct]
    split
    · rename_i hlen
      rw [Bignum.magnitude_withSign, sexpBignumFxmul_magnitude (.inl rfl),
        magnitude_of_hi_eq_one hlen]
    · rename_i hlen
      have hlt := mul_split_lt left right hlen
      have hle := shorter_hi_le left right
      have hone := one_le_sexpBignumHi (shorter left right)
      set k := sexpBignumHi (shorter left right) / 2 with hk
      have ha := sexpBignumSplit_magnitude (longer left right) (k := k) (by omega)
      have hb := sexpBignumSplit_magnitude (shorter left right) (k := k) (by omega)
      have hz1 := ih _ (by rw [← hsize, add_split_magnitude, add_split_magnitude]; omega)
        (sexpBignumAdd none (sexpBignumSplit (shorter left right) k).2
          (sexpBignumSplit (shorter left right) k).1)
        (sexpBignumAdd none (sexpBignumSplit (longer left right) k).2
          (sexpBignumSplit (longer left right) k).1) rfl
      have hz0 := ih _ (by omega) (sexpBignumSplit (longer left right) k).1
        (sexpBignumSplit (shorter left right) k).1 rfl
      have hz2 := ih _ (by omega) (sexpBignumSplit (longer left right) k).2
        (sexpBignumSplit (shorter left right) k).2 rfl
      rw [add_split_magnitude, add_split_magnitude] at hz1
      rw [Bignum.magnitude_withSign,
        assemble_magnitude
          ((sexpBignumSplit (longer left right) k).2.magnitude *
              (sexpBignumSplit (shorter left right) k).1.magnitude +
            (sexpBignumSplit (longer left right) k).1.magnitude *
              (sexpBignumSplit (shorter left right) k).2.magnitude)
          (sexpBignumMul_sign_pos rfl rfl) (sexpBignumMul_sign_pos rfl rfl)
          (sexpBignumMul_sign_pos rfl rfl) (by rw [hz0, hz1, hz2]; ring),
        hz0, hz2, ha, hb]
      ring

theorem sexpBignumMul_toInt : (sexpBignumMul left right).toInt = left.toInt * right.toInt := by
  have hsign : (sexpBignumMul left right).sign.toInt = left.sign.toInt * right.sign.toInt := by
    rw [sexpBignumMul_sign, Sign.toInt_mul]
    unfold longer shorter
    split
    · exact mul_comm _ _
    · rfl
  rw [Bignum.toInt, hsign, sexpBignumMul_magnitude, Bignum.toInt, Bignum.toInt]
  push_cast
  ring

/-! ## The recursion -/

/-- The calls that `sexp_bignum_mul` makes of itself, each with the operands it was
called with: the swap of the operands, and the three products. -/
inductive MulCall : Bignum × Bignum → Bignum × Bignum → Prop
  | swap {a b : Bignum} (hlt : sexpBignumHi a < sexpBignumHi b) : MulCall (b, a) (a, b)
  | sums {a b : Bignum} {k : ℕ} (hge : ¬ sexpBignumHi a < sexpBignumHi b)
      (hlen : sexpBignumHi b ≠ 1) (hk : k = sexpBignumHi b / 2) :
      MulCall (sexpBignumAdd none (sexpBignumSplit b k).2 (sexpBignumSplit b k).1,
        sexpBignumAdd none (sexpBignumSplit a k).2 (sexpBignumSplit a k).1) (a, b)
  | low {a b : Bignum} {k : ℕ} (hge : ¬ sexpBignumHi a < sexpBignumHi b)
      (hlen : sexpBignumHi b ≠ 1) (hk : k = sexpBignumHi b / 2) :
      MulCall ((sexpBignumSplit a k).1, (sexpBignumSplit b k).1) (a, b)
  | high {a b : Bignum} {k : ℕ} (hge : ¬ sexpBignumHi a < sexpBignumHi b)
      (hlen : sexpBignumHi b ≠ 1) (hk : k = sexpBignumHi b / 2) :
      MulCall ((sexpBignumSplit a k).2, (sexpBignumSplit b k).2) (a, b)

/-- Twice the sum of the magnitudes, and one more for operands still to be swapped. -/
private def mulMeasure (call : Bignum × Bignum) : ℕ :=
  2 * (call.1.magnitude + call.2.magnitude) +
    if sexpBignumHi call.1 < sexpBignumHi call.2 then 1 else 0

private theorem mulMeasure_le (call : Bignum × Bignum) :
    mulMeasure call ≤ 2 * (call.1.magnitude + call.2.magnitude) + 1 := by
  unfold mulMeasure
  split <;> omega

private theorem mulMeasure_lt {callee caller : Bignum × Bignum} (hcall : MulCall callee caller) :
    mulMeasure callee < mulMeasure caller := by
  have hparts : ∀ {a b : Bignum} {k : ℕ}, ¬ sexpBignumHi a < sexpBignumHi b →
      sexpBignumHi b ≠ 1 → k = sexpBignumHi b / 2 →
      ((sexpBignumSplit a k).1.magnitude + (sexpBignumSplit a k).2.magnitude) +
        ((sexpBignumSplit b k).1.magnitude + (sexpBignumSplit b k).2.magnitude) <
          a.magnitude + b.magnitude := by
    intro a b k hge hlen hk
    have hlt := mul_split_lt a b (by rwa [shorter, if_neg hge])
    rw [shorter, longer, if_neg hge, if_neg hge] at hlt
    rw [hk]
    exact hlt
  cases hcall with
  | swap hlt =>
    simp only [mulMeasure, if_pos hlt, if_neg (Nat.lt_asymm hlt)]
    omega
  | sums hge hlen hk =>
    have hlt := hparts hge hlen hk
    refine (mulMeasure_le _).trans_lt ?_
    simp only [mulMeasure, add_split_magnitude, if_neg hge]
    omega
  | low hge hlen hk =>
    have hlt := hparts hge hlen hk
    refine (mulMeasure_le _).trans_lt ?_
    simp only [mulMeasure, if_neg hge]
    omega
  | high hge hlen hk =>
    have hlt := hparts hge hlen hk
    refine (mulMeasure_le _).trans_lt ?_
    simp only [mulMeasure, if_neg hge]
    omega

end ChibiScheme
