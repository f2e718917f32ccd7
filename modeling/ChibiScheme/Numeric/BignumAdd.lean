import ChibiScheme.Numeric.Bignum

/-!
# Addition and subtraction of bignums

Each routine is one or two word loops, written with `Limbs.chain`.  Where the
source leaves a loop as soon as the carry is zero, the loop body here passes the
word through unchanged, which is the same.  A one-word equation for each body
gives the value of the whole loop by `Limbs.chain_value`.

The destination argument of the source is the object the digits are stored
into; the routines that pass one always pass the first operand itself.
-/

namespace ChibiScheme

open Limbs List

/-- `SEXP_UINT_T_MAX` -/
def sexpUintMax : UInt64 := 18446744073709551615

private theorem sexpUintMax_toNat : sexpUintMax.toNat = base - 1 := rfl

theorem gt_uintMax_sub_iff (left right : UInt64) :
    left > sexpUintMax - right ↔ base ≤ left.toNat + right.toNat := by
  have hmax := sexpUintMax_toNat
  have hright := toNat_lt_base right
  have hbase := base_pos
  rw [gt_iff_lt, UInt64.lt_iff_toNat_lt, UInt64.toNat_sub_of_le]
  · omega
  · rw [UInt64.le_iff_toNat_le]
    omega

private theorem toNat_add_of_lt {left right : UInt64} (hlt : left.toNat + right.toNat < base) :
    (left + right).toNat = left.toNat + right.toNat := by
  rw [UInt64.toNat_add]
  exact Nat.mod_eq_of_lt hlt

private theorem toNat_add_of_le {left right : UInt64} (hle : base ≤ left.toNat + right.toNat) :
    (left + right).toNat + base = left.toNat + right.toNat := by
  have hleft := toNat_lt_base left
  have hright := toNat_lt_base right
  rw [UInt64.toNat_add, show (2 : ℕ) ^ 64 = base from rfl, Nat.mod_eq_sub_mod hle,
    Nat.mod_eq_of_lt (by omega)]
  omega

/-! ## Adding and subtracting one word -/

/-- One pass of the loop of `sexp_bignum_fxadd`. -/
def fxaddBody (word carry : UInt64) : UInt64 × UInt64 :=
  if carry = 0 then (word, 0)
  else (word + carry, if word > sexpUintMax - carry then 1 else 0)

/-- `sexp_bignum_fxadd`: add a word to the magnitude. -/
def sexpBignumFxadd (a : Bignum) (b : UInt64) : Bignum :=
  let len := sexpBignumHi a
  let sum := chain fxaddBody (a.digits len) b
  let a := { a with data := sum.1 ++ a.data.drop len }
  if sum.2 ≠ 0 then (sexpCopyBignum a (len + 1)).setDigit len 1 else a

/-- One pass of the loop of `sexp_bignum_fxsub`. -/
def fxsubBody (word borrow : UInt64) : UInt64 × UInt64 :=
  if borrow = 0 then (word, 0)
  else (word - borrow, if word < borrow then 1 else 0)

/-- `sexp_bignum_fxsub`: subtract a word from the magnitude, flipping the sign
when the word is larger. -/
def sexpBignumFxsub (a : Bignum) (b : UInt64) : Bignum :=
  let len := sexpBignumHi a
  if len = 1 ∧ b > a.digit 0 then
    { sign := a.sign.flip, data := (b - a.digit 0) :: a.data.drop 1 }
  else { a with data := (chain fxsubBody a.data b).1 }

/-- `sexp_bignum_add_fixnum` -/
def sexpBignumAddFixnum (a : Bignum) (b : Fixnum) : Bignum :=
  let c := sexpCopyBignum a 0
  if c.sign = sexpFxSign b then sexpBignumFxadd c (sexpUnboxFxAbs b)
  else sexpBignumFxsub c (sexpUnboxFxAbs b)

variable (word : UInt64)

theorem fxaddBody_value (carry : UInt64) :
    ((fxaddBody word carry).1.toNat : ℤ) + base * ((fxaddBody word carry).2.toNat : ℤ) =
      (word.toNat : ℤ) + carry.toNat := by
  unfold fxaddBody
  split
  · rename_i hzero
    simp [hzero]
  · simp only [gt_uintMax_sub_iff]
    split
    · rename_i hle
      have hsum := toNat_add_of_le hle
      simp only [UInt64.toNat_one]
      omega
    · rename_i hlt
      rw [toNat_add_of_lt (not_le.mp hlt)]
      simp

theorem fxaddBody_carry_le (carry : UInt64) : (fxaddBody word carry).2.toNat ≤ 1 := by
  unfold fxaddBody
  split
  · exact Nat.zero_le _
  · simp only
    split <;> decide

variable {words : List UInt64}

private theorem chain_carry_le {body : UInt64 → UInt64 → UInt64 × UInt64}
    (hbody : ∀ word carry, (body word carry).2.toNat ≤ 1) (hne : words ≠ []) (carry : UInt64) :
    (chain body words carry).2.toNat ≤ 1 := by
  induction words generalizing carry with
  | nil => exact absurd rfl hne
  | cons word words ih =>
    cases words with
    | nil => exact hbody word carry
    | cons next words => exact ih (by simp) _

@[simp] theorem sexpBignumFxadd_sign (a : Bignum) (b : UInt64) :
    (sexpBignumFxadd a b).sign = a.sign := by
  unfold sexpBignumFxadd
  simp only
  split
  · simp [Bignum.setDigit, sexpCopyBignum]
  · rfl

variable {a : Bignum} {carry : UInt64}

private theorem magnitude_store {len : ℕ} (hlength : words.length = len)
    (hdrop : value (a.data.drop len) = 0) (hcarry : carry.toNat ≤ 1) :
    (if carry ≠ 0 then
        (sexpCopyBignum { a with data := words ++ a.data.drop len } (len + 1)).setDigit len 1
      else { a with data := words ++ a.data.drop len }).magnitude =
      value words + base ^ len * carry.toNat := by
  split
  · rename_i hne
    have hone : carry.toNat = 1 := by
      have hpos : carry.toNat ≠ 0 := fun hzero => hne (UInt64.toNat_inj.mp hzero)
      omega
    rw [value_copy_setDigit, Bignum.value_digits, hone]
    simp [← hlength]
  · rename_i hzero
    rw [not_not] at hzero
    simp [Bignum.magnitude, value_append, hdrop, hzero]

theorem sexpBignumFxadd_magnitude (a : Bignum) (b : UInt64) :
    (sexpBignumFxadd a b).magnitude = a.magnitude + b.toNat := by
  have hchain := (chain_value fxaddBody (fun word => (word.toNat : ℤ))
    (fun carry => (carry.toNat : ℤ)) (fun _ => True) (a.digits (sexpBignumHi a)) b trivial
    (fun word _ carry _ => ⟨trivial, fxaddBody_value word carry⟩)).2
  rw [weigh_toNat, Bignum.value_digits, value_take_sexpBignumHi, Bignum.length_digits] at hchain
  have hcarry : (chain fxaddBody (a.digits (sexpBignumHi a)) b).2.toNat ≤ 1 := by
    apply chain_carry_le fxaddBody_carry_le
    rw [← length_pos_iff, Bignum.length_digits]
    exact one_le_sexpBignumHi a
  unfold sexpBignumFxadd
  simp only
  rw [magnitude_store (by simp) (drop_sexpBignumHi a) hcarry]
  exact_mod_cast hchain

private theorem fxsubBody_value (borrow : UInt64) :
    ((fxsubBody word borrow).1.toNat : ℤ) + base * (-((fxsubBody word borrow).2.toNat : ℤ)) =
      (word.toNat : ℤ) + -(borrow.toNat : ℤ) := by
  unfold fxsubBody
  split
  · rename_i hzero
    simp [hzero]
  · have hword := toNat_lt_base word
    have hborrow := toNat_lt_base borrow
    simp only [UInt64.lt_iff_toNat_lt, UInt64.toNat_sub, show (2 : ℕ) ^ 64 = base from rfl]
    split
    · rename_i hlt
      rw [Nat.mod_eq_of_lt (by omega)]
      simp only [UInt64.toNat_one]
      omega
    · rename_i hge
      rw [Nat.mod_eq_sub_mod (by omega), Nat.mod_eq_of_lt (by omega)]
      simp only [UInt64.toNat_zero]
      omega

variable {borrow : UInt64}

private theorem value_of_borrow {difference : ℤ}
    (hvalue : (value words : ℤ) + (base : ℤ) ^ words.length * (-(borrow.toNat : ℤ)) = difference)
    (hnonneg : 0 ≤ difference) : (value words : ℤ) = difference := by
  have hlt : (value words : ℤ) < (base : ℤ) ^ words.length := by exact_mod_cast value_lt words
  have hzero : (borrow.toNat : ℤ) = 0 := by
    by_contra hne
    have hge : (1 : ℤ) ≤ borrow.toNat := by omega
    nlinarith
  rw [hzero] at hvalue
  linarith

theorem sexpBignumFxsub_toInt (a : Bignum) (b : UInt64) :
    (sexpBignumFxsub a b).toInt = a.sign.toInt * (a.magnitude - b.toNat) := by
  unfold sexpBignumFxsub
  simp only
  split
  · rename_i hsmall
    obtain ⟨hone, hgt⟩ := hsmall
    have hmag := magnitude_of_hi_eq_one hone
    have hdrop := drop_sexpBignumHi a
    rw [hone] at hdrop
    have hle : a.digit 0 ≤ b := UInt64.le_of_lt hgt
    have hword := UInt64.toNat_sub_of_le _ _ hle
    rw [UInt64.le_iff_toNat_le] at hle
    simp only [Bignum.toInt, Bignum.magnitude, value_cons, hdrop, hword, Sign.toInt_flip] at hmag ⊢
    rw [hmag]
    push_cast [hle]
    ring
  · rename_i hlarge
    have hle : b.toNat ≤ a.magnitude := by
      rcases Nat.eq_or_lt_of_le (one_le_sexpBignumHi a) with hone | hone
      · rw [magnitude_of_hi_eq_one hone.symm, ← not_lt, ← UInt64.lt_iff_toNat_lt]
        exact fun hgt => hlarge ⟨hone.symm, hgt⟩
      · exact (toNat_lt_base b).le.trans (base_le_magnitude_of_hi hone)
    have hchain := (chain_value fxsubBody (fun word => (word.toNat : ℤ))
      (fun borrow => -(borrow.toNat : ℤ)) (fun _ => True) a.data b trivial
      (fun word _ borrow _ => ⟨trivial, fxsubBody_value word borrow⟩)).2
    rw [weigh_toNat, ← length_chain fxsubBody a.data b] at hchain
    have hvalue := value_of_borrow hchain (by simp only [Bignum.magnitude] at hle; omega)
    simp only [Bignum.toInt, Bignum.magnitude, hvalue]
    ring

theorem sexpBignumAddFixnum_toInt (a : Bignum) (b : Fixnum) :
    (sexpBignumAddFixnum a b).toInt = a.toInt + b.val := by
  have hb := sexpFxSign_mul_abs b
  unfold sexpBignumAddFixnum sexpCopyBignum
  simp only [if_true]
  split
  · rename_i hsame
    rw [← hb, Bignum.toInt, sexpBignumFxadd_sign, sexpBignumFxadd_magnitude, Bignum.toInt, ← hsame]
    push_cast
    ring
  · rename_i hdiffer
    have hflip : (sexpFxSign b).toInt = -a.sign.toInt := by
      cases ha : a.sign <;> cases hb : sexpFxSign b <;> simp_all
    rw [← hb, sexpBignumFxsub_toInt, Bignum.toInt, hflip]
    ring

/-! ## Adding and subtracting digit arrays -/

/-- The first loop of `sexp_bignum_add_digits`, over both operands. -/
def addBody (pair : UInt64 × UInt64) (carry : UInt64) : UInt64 × UInt64 :=
  let oldA := pair.1
  let pSum := pair.1 + pair.2
  (pSum + carry,
    (if oldA > sexpUintMax - pair.2 then 1 else 0) + (if pSum > sexpUintMax - carry then 1 else 0))

/-- The second loop of `sexp_bignum_add_digits`, over the longer operand. -/
def carryBody (word carry : UInt64) : UInt64 × UInt64 :=
  if carry = 0 then (word, 0) else (word + 1, if word = sexpUintMax then 1 else 0)

/-- The object the digits are stored into: the destination when it has room,
otherwise a copy of the longer operand. -/
def destination (dst : Option Bignum) (a : Bignum) : Bignum :=
  match dst with
  | some dst => if sexpBignumHi dst ≥ sexpBignumHi a then dst else sexpCopyBignum a 0
  | none => sexpCopyBignum a 0

/-- `sexp_bignum_add_digits` once the operand with more digits comes first. -/
def addDigitsOrdered (dst : Option Bignum) (a b : Bignum) : Bignum :=
  let alen := sexpBignumHi a
  let blen := sexpBignumHi b
  let c := destination dst a
  let low := chain addBody ((a.digits blen).zip (b.digits blen)) 0
  let high := chain carryBody ((c.digits alen).drop blen) low.2
  let c := { c with data := low.1 ++ high.1 ++ c.data.drop alen }
  if high.2 ≠ 0 then (sexpCopyBignum c (alen + 1)).setDigit alen 1 else c

/-- `sexp_bignum_add_digits`: the sum of the magnitudes. -/
def sexpBignumAddDigits (dst : Option Bignum) (a b : Bignum) : Bignum :=
  if sexpBignumHi a < sexpBignumHi b then addDigitsOrdered dst b a else addDigitsOrdered dst a b

/-- The first loop of `sexp_bignum_sub_digits`, over both operands. -/
def subBody (pair : UInt64 × UInt64) (borrow : UInt64) : UInt64 × UInt64 :=
  if pair.1 > pair.2 ∨ (pair.1 = pair.2 ∧ borrow = 0) then (pair.1 - pair.2 - borrow, 0)
  else (sexpUintMax - pair.2 + 1 - borrow + pair.1, 1)

/-- The second loop of `sexp_bignum_sub_digits`, over the longer operand. -/
def borrowBody (word borrow : UInt64) : UInt64 × UInt64 :=
  if borrow = 0 then (word, 0) else (word - 1, if word = 0 then 1 else 0)

/-- `sexp_bignum_sub_digits` once the operand of larger magnitude comes first. -/
def subDigitsOrdered (dst : Option Bignum) (a b : Bignum) : Bignum :=
  let alen := sexpBignumHi a
  let blen := sexpBignumHi b
  let c := destination dst a
  let low := chain subBody ((a.digits blen).zip (b.digits blen)) 0
  let high := chain borrowBody ((c.digits alen).drop blen) low.2
  { c with data := low.1 ++ high.1 ++ c.data.drop alen }

/-- `sexp_bignum_sub_digits`: the difference of the magnitudes, larger minus
smaller. -/
def sexpBignumSubDigits (dst : Option Bignum) (a b : Bignum) : Bignum :=
  let alen := sexpBignumHi a
  let blen := sexpBignumHi b
  if alen < blen ∨ (alen = blen ∧ sexpBignumCompareAbs a b < 0) then subDigitsOrdered dst b a
  else subDigitsOrdered dst a b

/-- `sexp_bignum_add`.  The callers that pass a destination add numbers of one
sign, so no digits are overwritten before the comparison. -/
def sexpBignumAdd (dst : Option Bignum) (a b : Bignum) : Bignum :=
  if a.sign = b.sign then (sexpBignumAddDigits dst a b).withSign a.sign
  else
    (sexpBignumSubDigits dst a b).withSign
      (if sexpBignumCompareAbs a b ≥ 0 then a.sign else b.sign)

/-- `sexp_bignum_sub` -/
def sexpBignumSub (dst : Option Bignum) (a b : Bignum) : Bignum :=
  if a.sign = b.sign then
    (sexpBignumSubDigits dst a b).withSign
      (if sexpBignumCompareAbs a b ≥ 0 then a.sign else a.sign.flip)
  else (sexpBignumAddDigits dst a b).withSign a.sign

theorem addBody_value (pair : UInt64 × UInt64) (hcarry : carry.toNat ≤ 1) :
    (addBody pair carry).2.toNat ≤ 1 ∧
      ((addBody pair carry).1.toNat : ℤ) + base * ((addBody pair carry).2.toNat : ℤ) =
        ((pair.1.toNat : ℤ) + 1 * pair.2.toNat) + carry.toNat := by
  obtain ⟨left, right⟩ := pair
  have hleft := toNat_lt_base left
  have hright := toNat_lt_base right
  simp only [addBody, gt_uintMax_sub_iff]
  -- the two partial sums overflow at most once between them
  by_cases hfirst : base ≤ left.toNat + right.toNat
  · have hsum := toNat_add_of_le hfirst
    have hsecond : ¬ base ≤ (left + right).toNat + carry.toNat := by omega
    have htotal := toNat_add_of_lt (not_le.mp hsecond)
    simp only [if_pos hfirst, if_neg hsecond, htotal, UInt64.add_zero, UInt64.toNat_one]
    omega
  · have hsum := toNat_add_of_lt (not_le.mp hfirst)
    by_cases hsecond : base ≤ (left + right).toNat + carry.toNat
    · have htotal := toNat_add_of_le hsecond
      simp only [if_neg hfirst, if_pos hsecond, UInt64.zero_add, UInt64.toNat_one]
      omega
    · have htotal := toNat_add_of_lt (not_le.mp hsecond)
      simp only [if_neg hfirst, if_neg hsecond, htotal, UInt64.add_zero, UInt64.toNat_zero]
      omega

private theorem carryBody_value (hcarry : carry.toNat ≤ 1) :
    (carryBody word carry).2.toNat ≤ 1 ∧
      ((carryBody word carry).1.toNat : ℤ) + base * ((carryBody word carry).2.toNat : ℤ) =
        (word.toNat : ℤ) + carry.toNat := by
  unfold carryBody
  split
  · rename_i hzero
    simp [hzero]
  · rename_i hne
    have hone : carry.toNat = 1 := by
      have hpos : carry.toNat ≠ 0 := fun hzero => hne (UInt64.toNat_inj.mp hzero)
      omega
    have hword := toNat_lt_base word
    split
    · rename_i hmax
      subst hmax
      rw [hone]
      decide
    · rename_i hmax
      have hlt : word.toNat + (1 : UInt64).toNat < base := by
        have hmaxNat : word.toNat ≠ base - 1 := fun heq =>
          hmax (UInt64.toNat_inj.mp (heq.trans sexpUintMax_toNat.symm))
        simp only [UInt64.toNat_one]
        omega
      rw [toNat_add_of_lt hlt, hone]
      simp

/-- Two loops one after the other: the first over `len` words of both operands,
the second over what the longer operand has above them. -/
private theorem value_two_loops {low high : List UInt64} {len : ℕ} {carry carry' : ℤ} (other : ℤ)
    (words : List UInt64)
    (hlow : (value low : ℤ) + (base : ℤ) ^ len * carry = value (words.take len) + other)
    (hhigh : (value high : ℤ) + (base : ℤ) ^ (words.length - len) * carry' =
      value (words.drop len) + carry)
    (hlength : low.length = len) (hle : len ≤ words.length) :
    (value (low ++ high) : ℤ) + (base : ℤ) ^ words.length * carry' = value words + other := by
  have hsplit := value_take_add_drop words hle
  have hpow : (base : ℤ) ^ words.length = (base : ℤ) ^ len * (base : ℤ) ^ (words.length - len) := by
    rw [← pow_add]
    congr 1
    omega
  rw [value_append, hlength, hsplit, hpow]
  push_cast
  linear_combination hlow + (base : ℤ) ^ len * hhigh

theorem addDigits_loops (a b : Bignum) (hle : sexpBignumHi b ≤ sexpBignumHi a) :
    let low := chain addBody ((a.digits (sexpBignumHi b)).zip (b.digits (sexpBignumHi b))) 0
    let high := chain carryBody ((a.digits (sexpBignumHi a)).drop (sexpBignumHi b)) low.2
    high.2.toNat ≤ 1 ∧
      (value (low.1 ++ high.1) : ℤ) + (base : ℤ) ^ sexpBignumHi a * high.2.toNat =
        a.magnitude + b.magnitude := by
  intro low high
  obtain ⟨hcarry, hlow⟩ := chain_value addBody
    (fun pair : UInt64 × UInt64 => (pair.1.toNat : ℤ) + 1 * pair.2.toNat)
    (fun carry => (carry.toNat : ℤ)) (fun carry => carry.toNat ≤ 1)
    ((a.digits (sexpBignumHi b)).zip (b.digits (sexpBignumHi b))) 0 (by decide) (fun pair _ _ hcarry => addBody_value pair hcarry)
  obtain ⟨hcarry', hhigh⟩ := chain_value carryBody
    (fun word => (word.toNat : ℤ)) (fun carry => (carry.toNat : ℤ))
    (fun carry => carry.toNat ≤ 1) ((a.digits (sexpBignumHi a)).drop (sexpBignumHi b)) low.2 hcarry
    (fun word _ _ hcarry => carryBody_value word hcarry)
  refine ⟨hcarry', ?_⟩
  rw [weigh_zip _ _ (by simp)] at hlow
  rw [weigh_toNat, length_drop] at hhigh
  have htotal := value_two_loops b.magnitude (a.digits (sexpBignumHi a))
    (by simpa [a.take_digits hle, value_take_sexpBignumHi] using hlow) hhigh (by simp) (by simpa using hle)
  simpa [value_take_sexpBignumHi] using htotal

theorem subBody_value (pair : UInt64 × UInt64) (hborrow : borrow.toNat ≤ 1) :
    (subBody pair borrow).2.toNat ≤ 1 ∧
      ((subBody pair borrow).1.toNat : ℤ) + base * (-((subBody pair borrow).2.toNat : ℤ)) =
        ((pair.1.toNat : ℤ) + (-1) * pair.2.toNat) + -(borrow.toNat : ℤ) := by
  obtain ⟨left, right⟩ := pair
  have hleft := toNat_lt_base left
  have hright := toNat_lt_base right
  have hbase : base = 2 ^ 64 := rfl
  have hmax : sexpUintMax.toNat = 2 ^ 64 - 1 := rfl
  have hone : (1 : UInt64).toNat = 1 := rfl
  have hzero : (0 : UInt64).toNat = 0 := rfl
  simp only [subBody, gt_iff_lt, UInt64.lt_iff_toNat_lt, ← UInt64.toNat_inj]
  split
  · simp only [UInt64.toNat_sub, hzero]
    omega
  · simp only [UInt64.toNat_sub, UInt64.toNat_add, hmax, hone]
    omega

private theorem borrowBody_value (hborrow : borrow.toNat ≤ 1) :
    (borrowBody word borrow).2.toNat ≤ 1 ∧
      ((borrowBody word borrow).1.toNat : ℤ) + base * (-((borrowBody word borrow).2.toNat : ℤ)) =
        (word.toNat : ℤ) + -(borrow.toNat : ℤ) := by
  have hword := toNat_lt_base word
  have hbase : base = 2 ^ 64 := rfl
  have hone : (1 : UInt64).toNat = 1 := rfl
  have hzero : (0 : UInt64).toNat = 0 := rfl
  simp only [borrowBody, ← UInt64.toNat_inj]
  split
  · simp only [hzero]
    omega
  · simp only [UInt64.toNat_sub, hone]
    split <;> simp only [hone, hzero] <;> omega

private theorem subDigits_loops (a b : Bignum) (hle : b.magnitude ≤ a.magnitude)
    (hhi : sexpBignumHi b ≤ sexpBignumHi a) :
    let low := chain subBody ((a.digits (sexpBignumHi b)).zip (b.digits (sexpBignumHi b))) 0
    let high := chain borrowBody ((a.digits (sexpBignumHi a)).drop (sexpBignumHi b)) low.2
    (value (low.1 ++ high.1) : ℤ) = a.magnitude - b.magnitude := by
  intro low high
  obtain ⟨hborrow, hlow⟩ := chain_value subBody
    (fun pair : UInt64 × UInt64 => (pair.1.toNat : ℤ) + (-1) * pair.2.toNat)
    (fun borrow => -(borrow.toNat : ℤ)) (fun borrow => borrow.toNat ≤ 1)
    ((a.digits (sexpBignumHi b)).zip (b.digits (sexpBignumHi b))) 0 (by decide) (fun pair _ _ hborrow => subBody_value pair hborrow)
  obtain ⟨-, hhigh⟩ := chain_value borrowBody
    (fun word => (word.toNat : ℤ)) (fun borrow => -(borrow.toNat : ℤ))
    (fun borrow => borrow.toNat ≤ 1) ((a.digits (sexpBignumHi a)).drop (sexpBignumHi b)) low.2
    hborrow
    (fun word _ _ hborrow => borrowBody_value word hborrow)
  rw [weigh_zip _ _ (by simp)] at hlow
  rw [weigh_toNat, length_drop] at hhigh
  have htotal := value_two_loops (-b.magnitude) (a.digits (sexpBignumHi a))
    (by simpa [a.take_digits hhi, value_take_sexpBignumHi, ← sub_eq_add_neg] using hlow) hhigh
    (by simp) (by simpa using hhi)
  rw [Bignum.value_digits, value_take_sexpBignumHi, ← sub_eq_add_neg] at htotal
  have hlength : (low.1 ++ high.1).length = (a.digits (sexpBignumHi a)).length := by
    simp only [low, high, length_append, length_chain, length_zip, length_drop,
      Bignum.length_digits]
    omega
  rw [← hlength] at htotal
  exact value_of_borrow htotal (by omega)

@[simp] private theorem destination_none (a : Bignum) : destination none a = a := by
  simp [destination, sexpCopyBignum]

@[simp] private theorem destination_self (a : Bignum) : destination (some a) a = a := by
  simp [destination]

private theorem destination_of_lt {d : Bignum} (hlt : sexpBignumHi d < sexpBignumHi a) :
    destination (some d) a = a := by
  have hnot : ¬ sexpBignumHi d ≥ sexpBignumHi a := by omega
  simp [destination, hnot, sexpCopyBignum]

variable {dst : Option Bignum} {b : Bignum}

private theorem addDigitsOrdered_magnitude (hdst : destination dst a = a)
    (hle : sexpBignumHi b ≤ sexpBignumHi a) :
    (addDigitsOrdered dst a b).magnitude = a.magnitude + b.magnitude := by
  obtain ⟨hcarry, hvalue⟩ := addDigits_loops a b hle
  unfold addDigitsOrdered
  simp only [hdst]
  rw [magnitude_store (by simp [hle]) (drop_sexpBignumHi a) hcarry]
  exact_mod_cast hvalue

theorem sexpBignumAddDigits_magnitude (hdst : dst = none ∨ dst = some a) :
    (sexpBignumAddDigits dst a b).magnitude = a.magnitude + b.magnitude := by
  unfold sexpBignumAddDigits
  split
  · rename_i hlt
    have hdest : destination dst b = b := by
      rcases hdst with rfl | rfl
      · exact destination_none b
      · exact destination_of_lt hlt
    rw [addDigitsOrdered_magnitude hdest hlt.le, Nat.add_comm]
  · rename_i hge
    have hdest : destination dst a = a := by
      rcases hdst with rfl | rfl
      · exact destination_none a
      · exact destination_self a
    exact addDigitsOrdered_magnitude hdest (not_lt.mp hge)

private theorem subDigitsOrdered_magnitude (hle : b.magnitude ≤ a.magnitude)
    (hhi : sexpBignumHi b ≤ sexpBignumHi a) :
    ((subDigitsOrdered none a b).magnitude : ℤ) = a.magnitude - b.magnitude := by
  have hvalue := subDigits_loops a b hle hhi
  unfold subDigitsOrdered
  simp only [destination_none, Bignum.magnitude, value_append (_ ++ _), drop_sexpBignumHi,
    mul_zero, add_zero]
  exact hvalue

theorem sexpBignumSubDigits_magnitude (a b : Bignum) :
    ((sexpBignumSubDigits none a b).magnitude : ℤ) = |(a.magnitude : ℤ) - b.magnitude| := by
  have hmono : ∀ {x y : Bignum}, x.magnitude ≤ y.magnitude → sexpBignumHi x ≤ sexpBignumHi y :=
    fun {x y} hle => sexpBignumHi_le_of_magnitude_lt (one_le_sexpBignumHi y)
      (hle.trans_lt (magnitude_lt_base_pow_hi y))
  have hswap : sexpBignumHi a < sexpBignumHi b ∨
      (sexpBignumHi a = sexpBignumHi b ∧ sexpBignumCompareAbs a b < 0) ↔
        a.magnitude < b.magnitude := by
    rw [sexpBignumCompareAbs_neg_iff]
    constructor
    · rintro (hhi | ⟨-, hlt⟩)
      · by_contra hge
        have := hmono (not_lt.mp hge)
        omega
      · exact hlt
    · intro hlt
      have := hmono hlt.le
      omega
  unfold sexpBignumSubDigits
  simp only [hswap]
  split
  · rename_i hlt
    rw [subDigitsOrdered_magnitude hlt.le (hmono hlt.le), abs_of_nonpos (by omega)]
    ring
  · rename_i hge
    rw [subDigitsOrdered_magnitude (not_lt.mp hge) (hmono (not_lt.mp hge)),
      abs_of_nonneg (by omega)]

private theorem signed_difference (sign : Sign) (a b : Bignum) :
    (if sexpBignumCompareAbs a b ≥ 0 then sign else sign.flip).toInt *
        ((sexpBignumSubDigits none a b).magnitude : ℤ) =
      sign.toInt * (a.magnitude - b.magnitude) := by
  rw [sexpBignumSubDigits_magnitude]
  simp only [ge_iff_le, sexpBignumCompareAbs_nonneg_iff]
  split
  · rename_i hle
    rw [abs_of_nonneg (by omega)]
  · rename_i hlt
    rw [abs_of_nonpos (by omega), Sign.toInt_flip]
    ring

private theorem flip_of_ne {left right : Sign} (hne : ¬ left = right) : right = left.flip := by
  cases left <;> cases right <;> simp_all [Sign.flip]

theorem sexpBignumAdd_toInt (hdst : dst = none ∨ dst = some a ∧ a.sign = b.sign) :
    (sexpBignumAdd dst a b).toInt = a.toInt + b.toInt := by
  unfold sexpBignumAdd
  split
  · rename_i hsame
    rw [Bignum.toInt_withSign, sexpBignumAddDigits_magnitude (hdst.imp_right And.left),
      Bignum.toInt, Bignum.toInt, ← hsame]
    push_cast
    ring
  · rename_i hdiffer
    have hnone : dst = none := hdst.resolve_right fun hsome => hdiffer hsome.2
    subst hnone
    rw [Bignum.toInt_withSign, flip_of_ne hdiffer, signed_difference, Bignum.toInt, Bignum.toInt,
      flip_of_ne hdiffer, Sign.toInt_flip]
    ring

theorem sexpBignumSub_toInt (a b : Bignum) :
    (sexpBignumSub none a b).toInt = a.toInt - b.toInt := by
  unfold sexpBignumSub
  split
  · rename_i hsame
    rw [Bignum.toInt_withSign, signed_difference, Bignum.toInt, Bignum.toInt, ← hsame]
    ring
  · rename_i hdiffer
    rw [Bignum.toInt_withSign, sexpBignumAddDigits_magnitude (.inl rfl), Bignum.toInt, Bignum.toInt,
      flip_of_ne hdiffer, Sign.toInt_flip]
    push_cast
    ring

end ChibiScheme
