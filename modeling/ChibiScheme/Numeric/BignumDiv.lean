import ChibiScheme.Numeric.Integer

/-!
# Division of bignums

Division by one word walks the digits from the top, keeping the remainder in a
double word.  The general case is an iteration of its own kind: a quotient
guess is formed from the two or three top digits of the remainder and of the
divisor, subtracted at its weight, and when the guess was too large the
remainder turns negative and the next guesses are added back.

Every guess is at least one and less than twice the true quotient, so each pass
makes the remainder strictly smaller in absolute value, whichever side of zero
it lands on.  That is the whole termination argument, and with the identity
`a = q * b + a1` it is also the correctness argument.
-/

namespace ChibiScheme

open Limbs ExactInt List

/-! ## Division by one word -/

/-- The loop of `sexp_bignum_fxdiv`, top digit first: the quotient digits, and
the remainder in a double word. -/
def fxdivLoop (b : UInt64) : List UInt64 → List UInt64 × LUInt
  | [] => ([], luintFromUint 0)
  | word :: words =>
    let above := fxdivLoop b words
    let n := luintAdd (luintShl above.2 64) (luintFromUint word)
    let q := luintToUint (luintDivUint n b)
    let r := luintToUint (luintSub n (luintMulUint (luintFromUint q) b))
    (q :: above.1, luintFromUint r)

/-- `sexp_bignum_fxdiv`: divide the digits from `offset` up in place, and return
the remainder.  The length fits in its `int i`. -/
def sexpBignumFxdiv (a : Bignum) (b : UInt64) (offset : ℕ) : Bignum × UInt64 :=
  let len := sexpBignumHi a
  let out := fxdivLoop b ((a.digits len).drop offset)
  ({ a with data := a.digits offset ++ out.1 ++ a.data.drop len }, luintToUint out.2)

variable {b : UInt64}

private theorem fxdiv_step {n : LUInt} (word : UInt64) (hb : b.toNat ≠ 0) (hn : n.toNat < b.toNat) :
    let m := luintAdd (luintShl n 64) (luintFromUint word)
    let q := luintToUint (luintDivUint m b)
    let r := luintSub m (luintMulUint (luintFromUint q) b)
    word.toNat + base * n.toNat = q.toNat * b.toNat + r.toNat ∧ r.toNat < b.toNat := by
  intro m q r
  have hbase : (2 : ℕ) ^ 64 = base := rfl
  have hword := toNat_lt_base word
  have hbword := toNat_lt_base b
  have hshift : (luintShl n 64).toNat = n.toNat * base := by
    rw [luintShl_toNat] <;> rw [hbase]
    nlinarith
  have hm : m.toNat = n.toNat * base + word.toNat := by
    have hlt : n.toNat * base + word.toNat < base ^ 2 := by nlinarith
    rw [luintAdd_toNat] <;> rw [hshift, luintFromUint_toNat]
    exact hlt
  have hquot : m.toNat / b.toNat < base := by
    rw [Nat.div_lt_iff_lt_mul (Nat.pos_of_ne_zero hb), hm]
    nlinarith
  have hq : q.toNat = m.toNat / b.toNat := by
    have hdiv := luintDivUint_toNat m b
    rw [← hdiv] at hquot ⊢
    exact luintToUint_toNat_of_lt hquot
  have hdivmod := Nat.div_add_mod' m.toNat b.toNat
  have hmod := Nat.mod_lt m.toNat (Nat.pos_of_ne_zero hb)
  have hmul : (luintMulUint (luintFromUint q) b).toNat = q.toNat * b.toNat := by
    rw [luintMulUint_toNat] <;> rw [luintFromUint_toNat]
    have hmlt := luint_toNat_lt m
    rw [hq]
    omega
  have hr : r.toNat = m.toNat % b.toNat := by
    rw [luintSub_toNat] <;> rw [hmul, hq] <;> omega
  constructor
  · rw [hr, hq, hdivmod, hm]
    ring
  · rw [hr]
    exact hmod

theorem fxdivLoop_value (hb : b.toNat ≠ 0) (words : List UInt64) :
    value words = value (fxdivLoop b words).1 * b.toNat + (fxdivLoop b words).2.toNat ∧
      (fxdivLoop b words).2.toNat < b.toNat := by
  induction words with
  | nil =>
    simp only [fxdivLoop, value_nil, luintFromUint_toNat, UInt64.toNat_zero]
    omega
  | cons word words ih =>
    obtain ⟨hvalue, hlt⟩ := ih
    obtain ⟨hstep, hrlt⟩ := fxdiv_step word hb hlt
    have hr := luintToUint_toNat_of_lt (hrlt.trans (toNat_lt_base b))
    simp only [fxdivLoop, value_cons, luintFromUint_toNat, hr]
    refine ⟨?_, hrlt⟩
    rw [hvalue]
    linear_combination hstep

variable (a : Bignum)

/-- Quotient and remainder of the magnitude. -/
theorem sexpBignumFxdiv_spec (hb : b.toNat ≠ 0) :
    (sexpBignumFxdiv a b 0).1.magnitude = a.magnitude / b.toNat ∧
      (sexpBignumFxdiv a b 0).2.toNat = a.magnitude % b.toNat := by
  obtain ⟨hvalue, hlt⟩ := fxdivLoop_value hb (a.digits (sexpBignumHi a))
  rw [Bignum.value_digits, value_take_sexpBignumHi] at hvalue
  have hquot : (sexpBignumFxdiv a b 0).1.magnitude =
      value (fxdivLoop b (a.digits (sexpBignumHi a))).1 := by
    simp [sexpBignumFxdiv, Bignum.magnitude, Bignum.digits, value_append, drop_sexpBignumHi]
  have hrem : (sexpBignumFxdiv a b 0).2.toNat =
      (fxdivLoop b (a.digits (sexpBignumHi a))).2.toNat := by
    simp only [sexpBignumFxdiv, drop_zero]
    exact luintToUint_toNat_of_lt (hlt.trans (toNat_lt_base b))
  rw [hquot, hrem]
  have hunique := (Nat.div_mod_unique (a := a.magnitude) (Nat.pos_of_ne_zero hb)).mpr
    ⟨show _ + b.toNat * value (fxdivLoop b (a.digits (sexpBignumHi a))).1 = _ by
      rw [hvalue, mul_comm, add_comm], hlt⟩
  exact ⟨hunique.1.symm, hunique.2.symm⟩

@[simp] theorem sexpBignumFxdiv_sign (b : UInt64) : (sexpBignumFxdiv a b 0).1.sign = a.sign := rfl

/-- The loop of `sexp_bignum_fxrem`, which keeps no quotient. -/
def fxremLoop (b : UInt64) : List UInt64 → LUInt
  | [] => luintFromUint 0
  | word :: words =>
    let n := luintAdd (luintShl (fxremLoop b words) 64) (luintFromUint word)
    let q := luintToUint (luintDivUint n b)
    luintSub n (luintMulUint (luintFromUint q) b)

/-- `sexp_bignum_fxrem`: a power of two only masks the low digit.  `none` is the
exception raised for a zero divisor.  The length fits in its `int i`. -/
def sexpBignumFxrem (a : Bignum) (b : ℤ) : Option Fixnum :=
  let mask := UInt64.ofNat (b.toNat - 1)
  if b > 0 ∧ UInt64.ofNat b.toNat &&& mask = 0 then
    some (sexpMakeFixnum (a.sign.toInt * (a.digit 0 &&& mask).toNat))
  else
    let b0 := UInt64.ofNat b.natAbs
    if b0 = 0 then none
    else
      let n := fxremLoop b0 (a.digits (sexpBignumHi a))
      some (sexpMakeFixnum (a.sign.toInt * (luintToUint n).toNat))

theorem fxremLoop_value (hb : b.toNat ≠ 0) (words : List UInt64) :
    (fxremLoop b words).toNat = value words % b.toNat := by
  have hpos := Nat.pos_of_ne_zero hb
  induction words with
  | nil => simp [fxremLoop]
  | cons word words ih =>
    obtain ⟨hstep, hrlt⟩ := fxdiv_step word hb (ih ▸ Nat.mod_lt _ hpos)
    have hcongr : value (word :: words) ≡ word.toNat + base * (fxremLoop b words).toNat
        [MOD b.toNat] := by
      rw [value_cons, ih]
      exact (Nat.ModEq.refl _).add ((Nat.ModEq.refl _).mul (Nat.mod_modEq _ _).symm)
    rw [hstep, Nat.ModEq, Nat.mul_add_mod_self_right, Nat.mod_eq_of_lt hrlt] at hcongr
    exact hcongr.symm

theorem eq_two_pow_of_and_pred {n : ℕ} (hpos : 0 < n) (hand : n &&& (n - 1) = 0) :
    ∃ k, n = 2 ^ k := by
  refine ⟨Nat.log 2 n, ?_⟩
  by_contra hne
  have hlow := Nat.pow_log_le_self 2 hpos.ne'
  have hhigh := Nat.lt_pow_succ_log_self (b := 2) (by decide) n
  have hbit : ∀ m, 2 ^ Nat.log 2 n ≤ m → m < 2 ^ (Nat.log 2 n + 1) →
      m.testBit (Nat.log 2 n) = true := by
    intro m hle hlt
    have hdiv : m / 2 ^ Nat.log 2 n = 1 := by
      apply Nat.div_eq_of_lt_le
      · omega
      · rw [pow_succ] at hlt
        omega
    rw [Nat.testBit_eq_decide_div_mod_eq, hdiv]
    rfl
  have hboth : (n &&& (n - 1)).testBit (Nat.log 2 n) = true := by
    rw [Nat.testBit_and, hbit n hlow hhigh, hbit (n - 1) (by omega) (by omega)]
    rfl
  rw [hand, Nat.zero_testBit] at hboth
  exact Bool.false_ne_true hboth

theorem digit_mod_two_pow {k : ℕ} (hk : k ≤ 64) :
    (a.digit 0).toNat % 2 ^ k = a.magnitude % 2 ^ k := by
  have hdvd : 2 ^ k ∣ base := pow_dvd_pow 2 hk
  cases hdata : a.data with
  | nil => simp [Bignum.digit, Bignum.magnitude, hdata]
  | cons word words =>
    obtain ⟨cofactor, hcofactor⟩ := hdvd
    simp only [Bignum.digit, Bignum.magnitude, hdata, getD_cons_zero, value_cons, hcofactor,
      mul_assoc, Nat.add_mul_mod_self_left]

theorem tmod_signed (sign : Sign) (m : ℕ) (b : ℤ) :
    (sign.toInt * m).tmod b = sign.toInt * (m % b.natAbs : ℕ) := by
  have hpos : (m : ℤ).tmod b = (m % b.natAbs : ℕ) := by
    rcases Int.natAbs_eq b with hb | hb
    · conv_lhs => rw [hb]
      exact (Int.ofNat_tmod m b.natAbs).symm
    · conv_lhs => rw [hb]
      rw [Int.tmod_neg]
      exact (Int.ofNat_tmod m b.natAbs).symm
  cases sign
  · simpa using hpos
  · simp only [Sign.toInt_neg, neg_one_mul, Int.neg_tmod, hpos]

theorem tdiv_signed (sign sign' : Sign) (m n : ℕ) :
    (sign.toInt * m).tdiv (sign'.toInt * n) = (sign.mul sign').toInt * (m / n : ℕ) := by
  have hpos : (m : ℤ).tdiv n = (m / n : ℕ) := (Int.ofNat_tdiv m n).symm
  cases sign <;> cases sign' <;>
    simp only [Sign.toInt_pos, Sign.toInt_neg, Sign.toInt_mul, one_mul, neg_one_mul, Int.neg_tdiv,
      Int.tdiv_neg, hpos, neg_neg, mul_one]

private theorem signed_inFixnumRange {sign : Sign} {m : ℕ} (hlt : m < 2 ^ 62) :
    InFixnumRange (sign.toInt * m) := by
  rw [inFixnumRange_iff]
  cases sign
  · simp only [Sign.toInt_pos, one_mul]
    omega
  · simp only [Sign.toInt_neg, neg_one_mul]
    omega

/-- The remainder has the sign of the bignum. -/
theorem sexpBignumFxrem_spec {b : Fixnum} (hb : b.val ≠ 0) :
    ∃ r, sexpBignumFxrem a b.val = some r ∧ r.val = a.toInt.tmod b.val := by
  have habs := b.natAbs_le
  have hpos : 0 < b.val.natAbs := Int.natAbs_pos.mpr hb
  have hmod := Nat.mod_lt a.magnitude hpos
  have hword : (UInt64.ofNat b.val.natAbs).toNat = b.val.natAbs := by
    rw [UInt64.toNat_ofNat']
    exact Nat.mod_eq_of_lt (by omega)
  have hresult : (sexpMakeFixnum (a.sign.toInt * (a.magnitude % b.val.natAbs : ℕ))).val =
      a.toInt.tmod b.val := by
    rw [Bignum.toInt, tmod_signed]
    exact sexpMakeFixnum_val (signed_inFixnumRange (by omega))
  unfold sexpBignumFxrem
  simp only
  split
  · rename_i hpower
    obtain ⟨hgt, hand⟩ := hpower
    have htoNat : b.val.toNat = b.val.natAbs := by omega
    have hmask : (UInt64.ofNat (b.val.natAbs - 1)).toNat = b.val.natAbs - 1 := by
      rw [UInt64.toNat_ofNat']
      exact Nat.mod_eq_of_lt (by omega)
    have hnat : b.val.natAbs &&& (b.val.natAbs - 1) = 0 := by
      have := congrArg UInt64.toNat hand
      rwa [htoNat, UInt64.toNat_and, hword, hmask] at this
    obtain ⟨k, hk⟩ := eq_two_pow_of_and_pred hpos hnat
    have hk62 : k ≤ 62 := (Nat.pow_le_pow_iff_right (by decide)).mp (hk ▸ habs)
    refine ⟨_, rfl, ?_⟩
    rw [htoNat, UInt64.toNat_and, hmask, hk, Nat.and_two_pow_sub_one_eq_mod,
      digit_mod_two_pow a (by omega), ← hk]
    exact hresult
  · have hne : UInt64.ofNat b.val.natAbs ≠ 0 := by
      intro hzero
      rw [hzero, UInt64.toNat_zero] at hword
      omega
    rw [if_neg hne]
    refine ⟨_, rfl, ?_⟩
    have hloop := fxremLoop_value (b := UInt64.ofNat b.val.natAbs) (by omega)
      (a.digits (sexpBignumHi a))
    rw [hword, Bignum.value_digits, value_take_sexpBignumHi] at hloop
    rw [luintToUint_toNat_of_lt (by have : 2 ^ 62 < base := by decide
                                    omega), hloop]
    exact hresult

/-! ## The general case: the quotient guess -/

/-- `luint_and` -/
def luintAnd (m n : LUInt) : LUInt := m &&& n

/-- The two top digits of a bignum of `len` digits. -/
def topDigits (a : Bignum) (len : ℕ) : LUInt :=
  luintAdd (luintShl (luintFromUint (a.digit (len - 1))) 64) (luintFromUint (a.digit (len - 2)))

/-- Shift in the upper half of the next digit. -/
def extendHalf (n : LUInt) (word : UInt64) : LUInt :=
  luintAdd (luintShl n 32) (luintFromUint (word >>> 32))

/-- Both top digits are below half a word. -/
def halfTop (a1 b1 : Bignum) (alen blen : ℕ) : Prop :=
  (a1.digit (alen - 1)).toNat < 2 ^ 32 ∧ (b1.digit (blen - 1)).toNat < 2 ^ 32

instance (a1 b1 : Bignum) (alen blen : ℕ) : Decidable (halfTop a1 b1 alen blen) :=
  inferInstanceAs (Decidable (_ ∧ _))

/-- The first guess of `sexp_bignum_quot_rem`, from equally many digits of both. -/
def firstGuess (a1 b1 : Bignum) (alen blen : ℕ) : LUInt :=
  let dn := topDigits a1 alen
  let dd := topDigits b1 blen
  if alen > 2 ∧ blen > 2 ∧ halfTop a1 b1 alen blen then
    luintDiv (extendHalf dn (a1.digit (alen - 3))) (extendHalf dd (b1.digit (blen - 3)))
  else luintDiv dn dd

/-- The second guess, made one digit lower when the first is zero. -/
def secondGuess (a1 b1 : Bignum) (alen blen : ℕ) : LUInt :=
  let dn := topDigits a1 alen
  let dd := luintFromUint (b1.digit (blen - 1))
  if halfTop a1 b1 alen blen then
    luintDiv (extendHalf dn (a1.digit (alen - 3))) (extendHalf dd (b1.digit (blen - 2)))
  else luintDiv dn dd

/-- The guess and the index of its upper digit. -/
def guessQuotient (a1 b1 : Bignum) : LUInt × ℕ :=
  let alen := sexpBignumHi a1
  let blen := sexpBignumHi b1
  let off := alen - blen + 1
  let d := firstGuess a1 b1 alen blen
  if d = luintFromUint 0 then (secondGuess a1 b1 alen blen, off - 1) else (d, off)

private theorem magnitude_div_step (i : ℕ) :
    a.magnitude / base ^ i = (a.digit i).toNat + base * (a.magnitude / base ^ (i + 1)) := by
  simp only [Bignum.magnitude, value_div_base_pow, Bignum.digit]
  rcases Nat.lt_or_ge i a.data.length with hlt | hge
  · rw [drop_eq_getElem_cons hlt, value_cons, getD_eq_getElem _ _ hlt]
  · rw [drop_eq_nil_of_le hge, drop_eq_nil_of_le (by omega),
      getD_eq_default _ _ hge]
    rfl

private theorem magnitude_div_hi : a.magnitude / base ^ sexpBignumHi a = 0 :=
  Nat.div_eq_of_lt (magnitude_lt_base_pow_hi a)

private theorem topDigit_eq :
    (a.digit (sexpBignumHi a - 1)).toNat = a.magnitude / base ^ (sexpBignumHi a - 1) := by
  have hone := one_le_sexpBignumHi a
  rw [magnitude_div_step, Nat.sub_add_cancel hone, magnitude_div_hi, mul_zero, add_zero]

private theorem topDigits_eq (hlen : 2 ≤ sexpBignumHi a) :
    (topDigits a (sexpBignumHi a)).toNat = a.magnitude / base ^ (sexpBignumHi a - 2) := by
  have htop := toNat_lt_base (a.digit (sexpBignumHi a - 1))
  have hnext := toNat_lt_base (a.digit (sexpBignumHi a - 2))
  have hbase : (2 : ℕ) ^ 64 = base := rfl
  have hshift : (luintShl (luintFromUint (a.digit (sexpBignumHi a - 1))) 64).toNat =
      (a.digit (sexpBignumHi a - 1)).toNat * base := by
    rw [luintShl_toNat] <;> rw [luintFromUint_toNat, hbase]
    nlinarith
  rw [topDigits, luintAdd_toNat] <;> rw [hshift, luintFromUint_toNat]
  · rw [magnitude_div_step a (sexpBignumHi a - 2),
      show sexpBignumHi a - 2 + 1 = sexpBignumHi a - 1 by omega, ← topDigit_eq]
    ring
  · nlinarith

private theorem extendHalf_eq {a : Bignum} {n : LUInt} {i : ℕ}
    (hn : n.toNat = a.magnitude / base ^ (i + 1)) (hroom : n.toNat < 2 ^ 96) :
    (extendHalf n (a.digit i)).toNat = a.magnitude / (base ^ i * 2 ^ 32) := by
  have hword := (a.digit i).toNat_lt
  have hhalf : (a.digit i >>> 32).toNat = (a.digit i).toNat / 2 ^ 32 := by
    rw [UInt64.toNat_shiftRight, Nat.shiftRight_eq_div_pow]
    rfl
  have hbase : base = 2 ^ 64 := rfl
  rw [← Nat.div_div_eq_div_mul, magnitude_div_step, ← hn, extendHalf, luintAdd_toNat,
    luintShl_toNat, luintFromUint_toNat, hhalf]
  all_goals
    try rw [luintShl_toNat, luintFromUint_toNat, hhalf]
    all_goals
      rw [hbase] at *
      omega

/-- A guess formed from leading digits is less than twice the true quotient: the
divisor is below one more than its leading digits. -/
private theorem guess_lt_twice {dividend divisor weight weight' scale : ℕ}
    (hweight : scale * weight' = weight) (hscale : 0 < scale) (hweight' : 0 < weight')
    (hguess : 0 < dividend / weight / (divisor / weight')) :
    dividend / weight / (divisor / weight') * scale * divisor < 2 * dividend := by
  set dn := dividend / weight with hdn
  set dd := divisor / weight' with hdd
  set d := dn / dd with hd
  have hlow : dn * weight ≤ dividend := Nat.div_mul_le_self _ _
  have hhigh : divisor < (dd + 1) * weight' := by
    rw [hdd, add_mul, one_mul]
    exact Nat.lt_div_mul_add hweight'
  have hmul : d * dd ≤ dn := Nat.div_mul_le_self _ _
  have hle : d ≤ dn := Nat.div_le_self _ _
  calc d * scale * divisor
      < d * scale * ((dd + 1) * weight') := Nat.mul_lt_mul_of_pos_left hhigh (by positivity)
    _ = (d * dd + d) * weight := by
        rw [← hweight]
        ring
    _ ≤ (dn + dn) * weight := Nat.mul_le_mul_right _ (by omega)
    _ ≤ 2 * dividend := by
        rw [← two_mul, mul_assoc]
        exact Nat.mul_le_mul_left _ hlow

private theorem topDigits_lt {a : Bignum} (hlen : 2 ≤ sexpBignumHi a)
    (htop : (a.digit (sexpBignumHi a - 1)).toNat < 2 ^ 32) :
    (topDigits a (sexpBignumHi a)).toNat < 2 ^ 96 := by
  have hnext := (a.digit (sexpBignumHi a - 2)).toNat_lt
  have hbase : base = 2 ^ 64 := rfl
  rw [topDigits_eq a hlen, magnitude_div_step,
    show sexpBignumHi a - 2 + 1 = sexpBignumHi a - 1 by omega, ← topDigit_eq, hbase]
  omega

private theorem weight_mul (m n : ℕ) (factor : ℕ) :
    base ^ m * (base ^ n * factor) = base ^ (m + n) * factor := by
  rw [pow_add]
  ring

variable {a1 b1 : Bignum}

/-- The first guess divides the leading digits of both numbers, cut off at
weights that differ by the difference of their lengths. -/
private theorem firstGuess_eq (hlen : 2 ≤ sexpBignumHi b1) (hhi : sexpBignumHi b1 ≤ sexpBignumHi a1) :
    ∃ weight, 0 < weight ∧ weight ≤ b1.magnitude ∧
      (firstGuess a1 b1 (sexpBignumHi a1) (sexpBignumHi b1)).toNat =
        a1.magnitude / (base ^ (sexpBignumHi a1 - sexpBignumHi b1) * weight) /
          (b1.magnitude / weight) := by
  have hb1 := base_pow_hi_le_magnitude (a := b1) (by omega)
  have hbase := base_pos
  unfold firstGuess
  simp only
  split
  · rename_i hhalf
    obtain ⟨halen, hblen, hatop, hbtop⟩ := hhalf
    have hdn := extendHalf_eq (i := sexpBignumHi a1 - 3)
      (by rw [topDigits_eq a1 (by omega)]; congr 2; omega) (topDigits_lt (by omega) hatop)
    have hdd := extendHalf_eq (i := sexpBignumHi b1 - 3)
      (by rw [topDigits_eq b1 (by omega)]; congr 2; omega) (topDigits_lt (by omega) hbtop)
    refine ⟨base ^ (sexpBignumHi b1 - 3) * 2 ^ 32, by positivity, ?_, ?_⟩
    · calc base ^ (sexpBignumHi b1 - 3) * 2 ^ 32
          ≤ base ^ (sexpBignumHi b1 - 3) * base := Nat.mul_le_mul_left _ (by decide)
        _ = base ^ (sexpBignumHi b1 - 3 + 1) := (pow_succ _ _).symm
        _ ≤ base ^ (sexpBignumHi b1 - 1) := Nat.pow_le_pow_right base_pos (by omega)
        _ ≤ b1.magnitude := hb1
    · rw [luintDiv_toNat, hdn, hdd, weight_mul]
      congr 4
      omega
  · refine ⟨base ^ (sexpBignumHi b1 - 2), by positivity, ?_, ?_⟩
    · exact (Nat.pow_le_pow_right base_pos (by omega)).trans hb1
    · rw [luintDiv_toNat, topDigits_eq a1 (by omega), topDigits_eq b1 hlen, ← pow_add]
      congr 3
      omega

private theorem secondGuess_eq (hlen : 2 ≤ sexpBignumHi b1)
    (hhi : sexpBignumHi b1 < sexpBignumHi a1) :
    ∃ weight, 0 < weight ∧ weight ≤ b1.magnitude ∧ b1.magnitude < weight * base ∧
      base ^ (sexpBignumHi a1 - sexpBignumHi b1 - 1) * weight ≤ base ^ (sexpBignumHi a1 - 2) ∧
      (secondGuess a1 b1 (sexpBignumHi a1) (sexpBignumHi b1)).toNat =
        a1.magnitude / (base ^ (sexpBignumHi a1 - sexpBignumHi b1 - 1) * weight) /
          (b1.magnitude / weight) := by
  have hb1 := base_pow_hi_le_magnitude (a := b1) (by omega)
  have hb1lt := magnitude_lt_base_pow_hi b1
  have hbase := base_pos
  unfold secondGuess
  simp only
  split
  · rename_i hhalf
    obtain ⟨hatop, hbtop⟩ := hhalf
    have hdn := extendHalf_eq (i := sexpBignumHi a1 - 3)
      (by rw [topDigits_eq a1 (by omega)]; congr 2; omega) (topDigits_lt (by omega) hatop)
    have hdd := extendHalf_eq (a := b1) (i := sexpBignumHi b1 - 2)
      (n := luintFromUint (b1.digit (sexpBignumHi b1 - 1)))
      (by rw [luintFromUint_toNat, topDigit_eq]; congr 2; omega)
      (by rw [luintFromUint_toNat]; omega)
    have hsucc : base ^ (sexpBignumHi b1 - 2) * base = base ^ (sexpBignumHi b1 - 1) := by
      rw [← pow_succ]
      congr 1
      omega
    refine ⟨base ^ (sexpBignumHi b1 - 2) * 2 ^ 32, by positivity, ?_, ?_, ?_, ?_⟩
    · calc base ^ (sexpBignumHi b1 - 2) * 2 ^ 32
          ≤ base ^ (sexpBignumHi b1 - 2) * base := Nat.mul_le_mul_left _ (by decide)
        _ ≤ b1.magnitude := hsucc ▸ hb1
    · rw [topDigit_eq, Nat.div_lt_iff_lt_mul (by positivity)] at hbtop
      calc b1.magnitude < 2 ^ 32 * base ^ (sexpBignumHi b1 - 1) := hbtop
        _ = base ^ (sexpBignumHi b1 - 2) * 2 ^ 32 * base := by
            rw [← hsucc]
            ring
    · rw [weight_mul]
      calc base ^ (sexpBignumHi a1 - sexpBignumHi b1 - 1 + (sexpBignumHi b1 - 2)) * 2 ^ 32
          ≤ base ^ (sexpBignumHi a1 - 3) * base :=
            Nat.mul_le_mul (Nat.pow_le_pow_right base_pos (by omega)) (by decide)
        _ = base ^ (sexpBignumHi a1 - 3 + 1) := (pow_succ _ _).symm
        _ ≤ base ^ (sexpBignumHi a1 - 2) := Nat.pow_le_pow_right base_pos (by omega)
    · rw [luintDiv_toNat, hdn, hdd, weight_mul]
      congr 4
      omega
  · refine ⟨base ^ (sexpBignumHi b1 - 1), by positivity, hb1, ?_, ?_, ?_⟩
    · rwa [← pow_succ, Nat.sub_add_cancel (by omega)]
    · rw [← pow_add]
      exact Nat.pow_le_pow_right base_pos (by omega)
    · rw [luintDiv_toNat, topDigits_eq a1 (by omega), luintFromUint_toNat, topDigit_eq, ← pow_add]
      congr 3
      omega

/-- What a guess guarantees: it is not zero, and subtracting it leaves a
remainder smaller than before in absolute value. -/
theorem guessQuotient_spec (hlen : 2 ≤ sexpBignumHi b1) (hle : b1.magnitude ≤ a1.magnitude) :
    1 ≤ (guessQuotient a1 b1).2 ∧
      (guessQuotient a1 b1).2 ≤ sexpBignumHi a1 - sexpBignumHi b1 + 1 ∧
      0 < (guessQuotient a1 b1).1.toNat ∧
      (guessQuotient a1 b1).1.toNat * base ^ ((guessQuotient a1 b1).2 - 1) * b1.magnitude <
        2 * a1.magnitude := by
  have hhi : sexpBignumHi b1 ≤ sexpBignumHi a1 :=
    sexpBignumHi_le_of_magnitude_lt (one_le_sexpBignumHi a1)
      (hle.trans_lt (magnitude_lt_base_pow_hi a1))
  have hbase := base_pos
  obtain ⟨weight, hweight, hweightLe, hfirst⟩ := firstGuess_eq hlen hhi
  unfold guessQuotient
  simp only
  split
  · rename_i hzero
    rw [hzero, luintFromUint_toNat, UInt64.toNat_zero] at hfirst
    -- equally long operands cannot give a zero first guess
    have hlt : sexpBignumHi b1 < sexpBignumHi a1 := by
      by_contra hnot
      have heq : sexpBignumHi a1 - sexpBignumHi b1 = 0 := by omega
      rw [heq, pow_zero, one_mul] at hfirst
      have hpos := Nat.div_pos (Nat.div_le_div_right (c := weight) hle)
        (Nat.div_pos hweightLe hweight)
      omega
    obtain ⟨weight', hweight', hlow, hhigh, hcut, hsecond⟩ := secondGuess_eq hlen hlt
    have hdd : 0 < b1.magnitude / weight' := Nat.div_pos hlow hweight'
    have hdn : b1.magnitude / weight' ≤
        a1.magnitude / (base ^ (sexpBignumHi a1 - sexpBignumHi b1 - 1) * weight') := by
      have hdigit : b1.magnitude / weight' < base := Nat.div_lt_of_lt_mul hhigh
      have ha1 := base_pow_hi_le_magnitude (a := a1) (by omega)
      rw [show sexpBignumHi a1 - 1 = sexpBignumHi a1 - 2 + 1 by omega, pow_succ] at ha1
      have hlarge : base ≤
          a1.magnitude / (base ^ (sexpBignumHi a1 - sexpBignumHi b1 - 1) * weight') := by
        rw [Nat.le_div_iff_mul_le (by positivity)]
        calc base * (base ^ (sexpBignumHi a1 - sexpBignumHi b1 - 1) * weight')
            ≤ base * base ^ (sexpBignumHi a1 - 2) := Nat.mul_le_mul_left _ hcut
          _ ≤ a1.magnitude := by
              rw [mul_comm]
              exact ha1
      omega
    have hpos : 0 < a1.magnitude / (base ^ (sexpBignumHi a1 - sexpBignumHi b1 - 1) * weight') /
        (b1.magnitude / weight') := Nat.div_pos hdn hdd
    refine ⟨by omega, by omega, hsecond ▸ hpos, ?_⟩
    rw [hsecond, show sexpBignumHi a1 - sexpBignumHi b1 + 1 - 1 - 1 =
      sexpBignumHi a1 - sexpBignumHi b1 - 1 by omega]
    exact guess_lt_twice rfl (by positivity) hweight' hpos
  · rename_i hnonzero
    have hpos : 0 < (firstGuess a1 b1 (sexpBignumHi a1) (sexpBignumHi b1)).toNat := by
      apply Nat.pos_of_ne_zero
      intro hzero
      exact hnonzero (BitVec.eq_of_toNat_eq (by simpa using hzero))
    refine ⟨by omega, le_rfl, hpos, ?_⟩
    rw [Nat.add_sub_cancel, hfirst]
    exact guess_lt_twice rfl (by positivity) hweight (hfirst ▸ hpos)

end ChibiScheme
