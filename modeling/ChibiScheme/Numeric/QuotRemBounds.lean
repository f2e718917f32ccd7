import ChibiScheme.Numeric.QuotRem

/-!
# The digits that division touches

`Bignum.digit` reads a zero behind the last digit and `Bignum.setDigit` stores
nothing there, which C does not.  This file runs `sexp_bignum_quot_rem`,
`sexp_bignum_fxdiv` and `sexp_bignum_compare_abs` once more with every access
checked: an index outside of the object is the end of the run, without a result.
Lengths that the source assigns to an `int` are wrapped to 32 bits here.

Up to `2^30` digits the checked run has a result, and it is the one of the unchecked run.  For
the general case this rests on the loop invariant: the remainder never outgrows
the dividend, so the offset of a guess stays inside of the scratch bignum, and the
third digit of the remainder is read for a second guess only, when the remainder
has a digit more than the divisor.
-/

namespace ChibiScheme

open Limbs ExactInt List Option

/-! ## Checked accesses -/

/-- The digit at an index, which has to be one of the object. -/
def digitAt (a : Bignum) (i : ℤ) : Option UInt64 :=
  if 0 ≤ i then a.data[i.toNat]? else none

/-- Stores a digit at an index of the object. -/
def storeAt (a : Bignum) (i : ℤ) (word : UInt64) : Option Bignum :=
  if 0 ≤ i ∧ i < a.data.length then some (a.setDigit i.toNat word) else none

variable {a : Bignum} {i : ℕ}

theorem digitAt_of_lt (hlt : i < a.data.length) : digitAt a i = some (a.digit i) := by
  rw [digitAt, if_pos (Int.natCast_nonneg i), Int.toNat_natCast, getElem?_eq_getElem hlt,
    Bignum.digit, getD_eq_getElem _ _ hlt]

theorem storeAt_of_lt (hlt : i < a.data.length) (word : UInt64) :
    storeAt a i word = some (a.setDigit i word) := by
  rw [storeAt, if_pos ⟨Int.natCast_nonneg i, Int.ofNat_lt.mpr hlt⟩, Int.toNat_natCast]

variable {len : ℕ}

private theorem digitAt_back {k : ℕ} (hlen : len ≤ a.data.length) (hpos : 0 < k)
    (hle : k ≤ len) : digitAt a ((len : ℤ) - k) = some (a.digit (len - k)) := by
  rw [← Int.ofNat_sub hle]
  exact digitAt_of_lt (by omega)

/-! ## The checked run -/

/-- The digit loop of `sexp_bignum_compare_abs`. -/
def compareDigitsAt (a b : Bignum) : ℕ → Option ℤ
  | 0 => some 0
  | i + 1 => do
      let x ← digitAt a i
      let y ← digitAt b i
      if x > y then some 1
      else if x < y then some (-1)
      else compareDigitsAt a b i

/-- What an `int` keeps of a value. -/
def wrapInt (n : ℤ) : ℤ := Int.bmod n (2 ^ 32)

/-- `sexp_bignum_compare_abs`, without a result where `ai - bi` overflows. -/
def sexpBignumCompareAbsAt (a b : Bignum) : Option ℤ :=
  let ai := wrapInt (sexpBignumHi a)
  let bi := wrapInt (sexpBignumHi b)
  if ai ≠ bi then (if wrapInt (ai - bi) = ai - bi then some (ai - bi) else none)
  else compareDigitsAt a b ai.toNat

/-- The loop of `sexp_bignum_fxdiv` for the `count` digits from `offset` on, the
upper ones first: the dividend with its quotient digits, and the remainder. -/
def fxdivLoopAt (b : UInt64) (offset : ℕ) : ℕ → Bignum → LUInt → Option (Bignum × LUInt)
  | 0, a, n => some (a, n)
  | count + 1, a, n => do
      let i := offset + count
      let word ← digitAt a i
      let n := luintAdd (luintShl n 64) (luintFromUint word)
      let q := luintToUint (luintDivUint n b)
      let r := luintToUint (luintSub n (luintMulUint (luintFromUint q) b))
      let a ← storeAt a i q
      fxdivLoopAt b offset count a (luintFromUint r)

/-- `sexp_bignum_fxdiv`, whose `int i` runs down from `len-1` to `offset`. -/
def sexpBignumFxdivAt (a : Bignum) (b : UInt64) (offset : ℕ) : Option (Bignum × UInt64) :=
  let i := wrapInt (sexpBignumHi a - 1)
  (fxdivLoopAt b offset (i + 1 - offset).toNat a (luintFromUint 0)).map fun out =>
    (out.1, luintToUint out.2)

/-- The two upper digits of the first `len`. -/
def topDigitsAt (a : Bignum) (len : ℕ) : Option LUInt := do
  let high ← digitAt a ((len : ℤ) - 1)
  let low ← digitAt a ((len : ℤ) - 2)
  return luintAdd (luintShl (luintFromUint high) 64) (luintFromUint low)

/-- The first estimate of the quotient, from two or two and a half digits. -/
def firstGuessAt (a1 b1 : Bignum) (alen blen : ℕ) : Option LUInt := do
  let dn ← topDigitsAt a1 alen
  let dd ← topDigitsAt b1 blen
  if alen > 2 ∧ blen > 2 ∧ halfTop a1 b1 alen blen then
    let third ← digitAt a1 ((alen : ℤ) - 3)
    let third' ← digitAt b1 ((blen : ℤ) - 3)
    return luintDiv (extendHalf dn third) (extendHalf dd third')
  else return luintDiv dn dd

/-- The second estimate, one digit lower, from the top digit of the divisor. -/
def secondGuessAt (a1 b1 : Bignum) (alen blen : ℕ) : Option LUInt := do
  let dn ← topDigitsAt a1 alen
  let top ← digitAt b1 ((blen : ℤ) - 1)
  let dd := luintFromUint top
  if halfTop a1 b1 alen blen then
    let third ← digitAt a1 ((alen : ℤ) - 3)
    let second ← digitAt b1 ((blen : ℤ) - 2)
    return luintDiv (extendHalf dn third) (extendHalf dd second)
  else return luintDiv dn dd

/-- The guess and the index of its upper digit. -/
def guessQuotientAt (a1 b1 : Bignum) : Option (LUInt × ℕ) := do
  let alen := sexpBignumHi a1
  let blen := sexpBignumHi b1
  let off := alen - blen + 1
  let d ← firstGuessAt a1 b1 alen blen
  if d = luintFromUint 0 then
    let d ← secondGuessAt a1 b1 alen blen
    return (d, off - 1)
  else return (d, off)

/-- Stores the two digits of a guess in the scratch bignum. -/
def storeGuessAt (x : Bignum) (off : ℕ) (dhi dlo : UInt64) : Option Bignum := do
  let x ← storeAt x off dhi
  if off > 0 then storeAt x ((off : ℤ) - 1) dlo else return x

/-- One pass of the loop. -/
def quotRemStepAt (b1 : Bignum) (s : QuotRemState) : Option QuotRemState := do
  let x ← storeGuessAt s.x s.off 0 0
  let (d, off) ← guessQuotientAt s.a1 b1
  let dhi := luintToUint (luintShr d 64)
  let dlo := luintToUint
    (luintAnd d (luintSub (luintShl (luintFromUint 1) 64) (luintFromUint 1)))
  let x ← storeGuessAt x off dhi dlo
  let y := sexpBignumMul b1 x
  let a1 := if s.sign = .neg then sexpBignumAdd none s.a1 y else sexpBignumSub none s.a1 y
  let q := if s.sign = .neg then subInteger s.q (.bignum x) else addInteger s.q (.bignum x)
  if a1.sign ≠ s.sign then
    return { a1 := a1.withSign s.sign.flip, q := q, x := x, sign := s.sign.flip, off := off }
  else return { a1 := a1, q := q, x := x, sign := s.sign, off := off }

/-- The loop, which ends when the remainder is less than the divisor. -/
def quotRemLoopAt (b1 : Bignum) : ℕ → QuotRemState → Option QuotRemState
  | 0, _ => none
  | fuel + 1, s => do
      let order ← sexpBignumCompareAbsAt s.a1 b1
      if order ≥ 0 then
        let s ← quotRemStepAt b1 s
        quotRemLoopAt b1 fuel s
      else return s

variable {b : Bignum}

/-- `sexp_bignum_quot_rem`; `none` is a loop that has not ended, or an access to a
digit that an object does not have. -/
def sexpBignumQuotRemAt (a b : Bignum) : Option (Except String (ExactInt × ExactInt)) := do
  let blen := sexpBignumHi b
  let zero ← if blen = 1 then (digitAt b 0).map (· == 0) else some false
  if zero then return .error "divide by zero"
  else
    let a1 := (sexpCopyBignum a 0).withSign .pos
    let finish : ExactInt × ExactInt → Except String (ExactInt × ExactInt) := fun (q, r) =>
      .ok (if a.sign.mul b.sign = .neg then negateExact q else q,
        if a.sign = .neg then negateExact r else r)
    if blen = 1 then
      let divisor ← digitAt b 0
      let out ← sexpBignumFxdivAt a1 divisor 0
      let rem ← storeAt (sexpMakeBignum 1) 0 out.2
      return finish (.bignum out.1, sexpBignumNormalize rem)
    else
      let b1 := (sexpCopyBignum b 0).withSign .pos
      let start : QuotRemState :=
        { a1 := a1, q := .fixnum sexpZero, x := sexpMakeBignum a.data.length, sign := .pos,
          off := 0 }
      let s ← quotRemLoopAt b1 (a.magnitude + 1) start
      let r := sexpBignumNormalize s.a1
      if s.sign = .neg ∧ r ≠ .fixnum sexpZero then
        return finish (subInteger s.q (.fixnum sexpOne), addInteger r (.bignum b1))
      else return finish (s.q, r)

/-! ## Comparison and division by one word -/

theorem compareDigitsAt_eq (ha : i ≤ a.data.length) (hb : i ≤ b.data.length) :
    compareDigitsAt a b i = some (compareDigits a.data b.data i) := by
  induction i with
  | zero => rfl
  | succ i ih =>
    rw [compareDigitsAt, digitAt_of_lt (by omega), digitAt_of_lt (by omega), compareDigits]
    simp only [bind_eq_bind, bind_some, Bignum.digit]
    rw [ih (by omega) (by omega)]
    split
    · rfl
    · split <;> rfl

theorem wrapInt_eq {n : ℤ} (hlow : -2 ^ 31 ≤ n) (hhigh : n < 2 ^ 31) : wrapInt n = n :=
  Int.bmod_eq_of_le (by omega) (by omega)

theorem sexpBignumCompareAbsAt_eq (hlen : 1 < sexpBignumHi b) (ha : sexpBignumHi a < 2 ^ 31)
    (hb : sexpBignumHi b < 2 ^ 31) :
    sexpBignumCompareAbsAt a b = some (sexpBignumCompareAbs a b) := by
  unfold sexpBignumCompareAbsAt sexpBignumCompareAbs
  simp only
  rw [wrapInt_eq (n := sexpBignumHi a) (by omega) (by omega),
    wrapInt_eq (n := sexpBignumHi b) (by omega) (by omega), wrapInt_eq (by omega) (by omega),
    if_pos rfl, Int.toNat_natCast]
  simp only [ne_eq, Nat.cast_inj]
  split
  · rfl
  · rename_i heq
    rw [not_not] at heq
    have hhi := sexpBignumHi_le_length_of_one_lt hlen
    have hhi' := sexpBignumHi_le_length_of_one_lt (heq ▸ hlen)
    exact compareDigitsAt_eq hhi' (by omega)

theorem fxdivLoopAt_eq (b : UInt64) (sign : Sign) (before words after : List UInt64) {count : ℕ}
    (hcount : count ≤ words.length) :
    fxdivLoopAt b before.length count
        ⟨sign, before ++ (words.take count ++ ((fxdivLoop b (words.drop count)).1 ++ after))⟩
        (fxdivLoop b (words.drop count)).2 =
      some (⟨sign, before ++ ((fxdivLoop b words).1 ++ after)⟩, (fxdivLoop b words).2) := by
  induction count with
  | zero => simp [fxdivLoopAt]
  | succ count ih =>
    have hlt : count < words.length := hcount
    have hnext := ih hlt.le
    rw [drop_eq_getElem_cons hlt, fxdivLoop] at hnext
    rw [take_succ_eq_append_getElem hlt]
    generalize fxdivLoop b (words.drop (count + 1)) = above at hnext ⊢
    have hindex : (before ++ words.take count).length = before.length + count := by
      rw [length_append, length_take, Nat.min_eq_left hlt.le]
    have hsplit : before ++ (words.take count ++ [words[count]] ++ (above.1 ++ after)) =
        (before ++ words.take count) ++ words[count] :: (above.1 ++ after) := by
      simp only [append_assoc, cons_append, nil_append]
    rw [fxdivLoopAt, hsplit, ← hindex]
    have hdigit : digitAt ⟨sign, (before ++ words.take count) ++ words[count] ::
        (above.1 ++ after)⟩ (before ++ words.take count).length = some words[count] := by
      rw [digitAt_of_lt (by simp)]
      simp [Bignum.digit]
    have hstore : ∀ q, storeAt ⟨sign, (before ++ words.take count) ++ words[count] ::
        (above.1 ++ after)⟩ (before ++ words.take count).length q =
        some ⟨sign, before ++ (words.take count ++ (q :: above.1 ++ after))⟩ := by
      intro q
      rw [storeAt_of_lt (by simp)]
      simp [Bignum.setDigit]
    rw [hdigit, bind_eq_bind, bind_some]
    simp only [hstore]
    exact hnext

theorem sexpBignumFxdivAt_eq (b : UInt64) (hne : a.data ≠ []) (hint : a.data.length < 2 ^ 31) :
    sexpBignumFxdivAt a b 0 = some (sexpBignumFxdiv a b 0) := by
  have hhi := sexpBignumHi_le_length hne
  have hone := one_le_sexpBignumHi a
  have hcount : (wrapInt (sexpBignumHi a - 1) + 1 - (0 : ℕ)).toNat = sexpBignumHi a := by
    rw [wrapInt_eq (by omega) (by omega)]
    omega
  have hdigits : a.digits (sexpBignumHi a) = a.data.take (sexpBignumHi a) := by
    rw [Bignum.digits, Nat.sub_eq_zero_of_le hhi, replicate_zero, append_nil]
  have hloop := @fxdivLoopAt_eq b a.sign [] (a.data.take (sexpBignumHi a))
    (a.data.drop (sexpBignumHi a)) (sexpBignumHi a) (by simp [hhi])
  have hall : List.drop (sexpBignumHi a) (a.data.take (sexpBignumHi a)) = [] :=
    drop_eq_nil_of_le (by simp)
  rw [hall] at hloop
  simp only [fxdivLoop, nil_append, take_take, Nat.min_self, length_nil, take_append_drop] at hloop
  rw [sexpBignumFxdivAt, hcount, hloop, sexpBignumFxdiv, hdigits]
  simp [Bignum.digits]

/-! ## One pass -/

theorem topDigitsAt_eq (htwo : 2 ≤ len) (hlen : len ≤ a.data.length) :
    topDigitsAt a len = some (topDigits a len) := by
  have hhigh := digitAt_back hlen (k := 1) (by decide) (by omega)
  have hlow := digitAt_back hlen (k := 2) (by decide) htwo
  rw [topDigitsAt, show ((len : ℤ) - 1) = (len : ℤ) - (1 : ℕ) by rfl, hhigh,
    show ((len : ℤ) - 2) = (len : ℤ) - (2 : ℕ) by rfl, hlow]
  rfl

variable {a1 b1 : Bignum}

theorem firstGuessAt_eq {alen blen : ℕ} (halen : 2 ≤ alen) (hblen : 2 ≤ blen)
    (ha1 : alen ≤ a1.data.length) (hb1 : blen ≤ b1.data.length) :
    firstGuessAt a1 b1 alen blen = some (firstGuess a1 b1 alen blen) := by
  rw [firstGuessAt, topDigitsAt_eq halen ha1, topDigitsAt_eq hblen hb1, firstGuess]
  simp only [bind_eq_bind, bind_some]
  split
  · rename_i hhalf
    have hthird := digitAt_back ha1 (k := 3) (by decide) hhalf.1
    have hthird' := digitAt_back hb1 (k := 3) (by decide) hhalf.2.1
    rw [show ((alen : ℤ) - 3) = (alen : ℤ) - (3 : ℕ) by rfl, hthird,
      show ((blen : ℤ) - 3) = (blen : ℤ) - (3 : ℕ) by rfl, hthird']
    rfl
  · rfl

theorem secondGuessAt_eq {alen blen : ℕ} (halen : 3 ≤ alen) (hblen : 2 ≤ blen)
    (ha1 : alen ≤ a1.data.length) (hb1 : blen ≤ b1.data.length) :
    secondGuessAt a1 b1 alen blen = some (secondGuess a1 b1 alen blen) := by
  have htop := digitAt_back hb1 (k := 1) (by decide) (by omega)
  rw [secondGuessAt, topDigitsAt_eq (by omega) ha1,
    show ((blen : ℤ) - 1) = (blen : ℤ) - (1 : ℕ) by rfl, htop, secondGuess]
  simp only [bind_eq_bind, bind_some]
  split
  · have hthird := digitAt_back ha1 (k := 3) (by decide) halen
    have hsecond := digitAt_back hb1 (k := 2) (by decide) hblen
    rw [show ((alen : ℤ) - 3) = (alen : ℤ) - (3 : ℕ) by rfl, hthird,
      show ((blen : ℤ) - 2) = (blen : ℤ) - (2 : ℕ) by rfl, hsecond]
    rfl
  · rfl

theorem guessQuotientAt_eq (hlen : 2 ≤ sexpBignumHi b1) (hle : b1.magnitude ≤ a1.magnitude) :
    guessQuotientAt a1 b1 = some (guessQuotient a1 b1) := by
  have hhi : sexpBignumHi b1 ≤ sexpBignumHi a1 :=
    sexpBignumHi_le_of_magnitude_lt (one_le_sexpBignumHi a1)
      (hle.trans_lt (magnitude_lt_base_pow_hi a1))
  have ha1 := sexpBignumHi_le_length_of_one_lt (a := a1) (by omega)
  have hb1 := sexpBignumHi_le_length_of_one_lt (a := b1) hlen
  obtain ⟨hoff, -⟩ := guessQuotient_spec hlen hle
  rw [guessQuotientAt, firstGuessAt_eq (by omega) hlen ha1 hb1]
  simp only [bind_eq_bind, bind_some]
  unfold guessQuotient at hoff ⊢
  simp only at hoff ⊢
  split
  · rename_i hzero
    rw [if_pos hzero] at hoff
    rw [secondGuessAt_eq (by omega) hlen ha1 hb1]
    rfl
  · rfl

theorem storeGuessAt_eq {x : Bignum} {off : ℕ} (dhi dlo : UInt64) (hlt : off < x.data.length) :
    storeGuessAt x off dhi dlo = some (storeGuess x off dhi dlo) := by
  rw [storeGuessAt, storeAt_of_lt hlt, storeGuess]
  simp only [bind_eq_bind, bind_some]
  split
  · rename_i hpos
    rw [← Nat.cast_one, ← Int.ofNat_sub hpos]
    apply storeAt_of_lt
    simp only [Bignum.setDigit, length_set]
    omega
  · rfl

private theorem length_storeGuess (x : Bignum) (off : ℕ) (dhi dlo : UInt64) :
    (storeGuess x off dhi dlo).data.length = x.data.length := by
  unfold storeGuess Bignum.setDigit
  split <;> simp

private theorem length_scratch {x : Bignum} {off : ℕ} (hscratch : Scratch x off len) :
    x.data.length = len := by
  have hlength := congrArg List.length hscratch.cleared
  rwa [length_storeGuess, length_replicate] at hlength

/-- The pass stays inside of its bignums.  The digits of the last guess are still
there when the next one is stored. -/
theorem quotRemStepAt_eq {s : QuotRemState} (hinv : QuotRemInv a b1 s)
    (hoff : s.off < a.data.length) (hlen : 2 ≤ sexpBignumHi b1)
    (hle : b1.magnitude ≤ s.a1.magnitude) :
    quotRemStepAt b1 s = some (quotRemStep b1 s) ∧ (quotRemStep b1 s).off < a.data.length := by
  obtain ⟨hone, hoffLe, -⟩ := guessQuotient_spec hlen hle
  have hhi : sexpBignumHi s.a1 ≤ sexpBignumHi a :=
    sexpBignumHi_le_of_magnitude_lt (one_le_sexpBignumHi a)
      (hinv.bounded.trans_lt (magnitude_lt_base_pow_hi a))
  have hne : a.data ≠ [] := ne_nil_of_length_pos (by omega)
  have hlength := sexpBignumHi_le_length hne
  have hhib : sexpBignumHi b1 ≤ sexpBignumHi s.a1 :=
    sexpBignumHi_le_of_magnitude_lt (one_le_sexpBignumHi s.a1)
      (hle.trans_lt (magnitude_lt_base_pow_hi s.a1))
  have hroom : (guessQuotient s.a1 b1).2 < a.data.length := by omega
  have hx := length_scratch hinv.scratch
  constructor
  · rw [quotRemStepAt, storeGuessAt_eq _ _ (by omega), guessQuotientAt_eq hlen hle]
    simp only [bind_eq_bind, bind_some]
    rw [storeGuessAt_eq _ _ (by rw [length_storeGuess]; omega)]
    simp only [bind_some, quotRemStep]
    exact (apply_ite some _ _ _).symm
  · rw [quotRemStep_eq]
    exact hroom

theorem quotRemLoopAt_eq (hb1 : b1.sign = .pos) (hlen : 2 ≤ sexpBignumHi b1) {fuel : ℕ}
    {s : QuotRemState} (hinv : QuotRemInv a b1 s) (hoff : s.off < a.data.length)
    (ha : sexpBignumHi a < 2 ^ 31) (hb : sexpBignumHi b1 < 2 ^ 31) :
    quotRemLoopAt b1 fuel s = quotRemLoop b1 fuel s := by
  induction fuel generalizing s with
  | zero => rfl
  | succ fuel ih =>
    have hhi : sexpBignumHi s.a1 ≤ sexpBignumHi a :=
      sexpBignumHi_le_of_magnitude_lt (one_le_sexpBignumHi a)
        (hinv.bounded.trans_lt (magnitude_lt_base_pow_hi a))
    rw [quotRemLoopAt, sexpBignumCompareAbsAt_eq hlen (by omega) hb, quotRemLoop]
    simp only [bind_eq_bind, bind_some]
    split
    · rename_i hge
      have hle := (sexpBignumCompareAbs_nonneg_iff _ _).mp hge
      obtain ⟨hstep, hnext⟩ := quotRemStepAt_eq hinv hoff hlen hle
      rw [hstep, bind_some]
      exact ih (quotRemStep_inv hinv hb1 hlen hle).1 hnext
    · rfl

theorem quotRemLoopAt_start (fuel : ℕ) (hlen : 2 ≤ sexpBignumHi b) (ha : a.data ≠ [])
    (haint : a.data.length < 2 ^ 31) (hbint : sexpBignumHi b < 2 ^ 31) :
    let start : QuotRemState := ⟨(sexpCopyBignum a 0).withSign .pos, .fixnum sexpZero,
      sexpMakeBignum a.data.length, .pos, 0⟩
    quotRemLoopAt ((sexpCopyBignum b 0).withSign .pos) fuel start =
      quotRemLoop ((sexpCopyBignum b 0).withSign .pos) fuel start := by
  intro start
  have hstart : QuotRemInv a ((sexpCopyBignum b 0).withSign .pos) start :=
    { sign := rfl
      identity := by simp [Bignum.toInt, sexpCopyBignum, start]
      bounded := by simp [sexpCopyBignum, start]
      scratch := scratch_start _ }
  have hoff : start.off < a.data.length := length_pos_iff.mpr ha
  have hhi : 2 ≤ sexpBignumHi ((sexpCopyBignum b 0).withSign .pos) := hlen
  have haint' : sexpBignumHi a < 2 ^ 31 := (sexpBignumHi_le_length ha).trans_lt haint
  exact quotRemLoopAt_eq rfl hhi hstart hoff haint' hbint

/-! ## The whole division -/

private theorem abs_tmod_lt (m : ℤ) {n : ℤ} (hn : n ≠ 0) : |m.tmod n| < |n| := by
  rw [Int.abs_eq_natAbs, Int.abs_eq_natAbs, Int.natAbs_tmod]
  exact_mod_cast Nat.mod_lt _ (Int.natAbs_pos.mpr hn)

private theorem tmod_eq_zero_or_sign (m n : ℤ) : m.tmod n = 0 ∨ (m.tmod n).sign = m.sign := by
  rw [Int.sign_tmod]
  split
  · rename_i hdvd
    exact .inl (Int.tmod_eq_zero_of_dvd hdvd)
  · exact .inr rfl

theorem sexpBignumQuotRemAt_eq (ha : a.data ≠ []) (hb : b.data ≠ [])
    (haint : a.data.length < 2 ^ 31) (hbint : b.data.length < 2 ^ 31) :
    sexpBignumQuotRemAt a b = sexpBignumQuotRem a b := by
  have hfirst : digitAt b 0 = some (b.digit 0) :=
    digitAt_of_lt (i := 0) (length_pos_iff.mpr hb)
  unfold sexpBignumQuotRemAt sexpBignumQuotRem
  simp only [hfirst, map_some, bind_eq_bind, bind_some]
  by_cases hone : sexpBignumHi b = 1
  · simp only [hone, if_true, true_and, beq_iff_eq]
    split
    · rfl
    have hcopy : ((sexpCopyBignum a 0).withSign .pos).data ≠ [] := by
      intro hnil
      rw [Bignum.withSign_data, sexpCopyBignum] at hnil
      simp [ha] at hnil
    rw [sexpBignumFxdivAt_eq _ hcopy (by simpa [sexpCopyBignum] using haint)]
    rfl
  · have hlen : 2 ≤ sexpBignumHi b := by
      have hpos := one_le_sexpBignumHi b
      omega
    have hhi := sexpBignumHi_le_length hb
    simp only [hone, if_false, false_and, Bool.false_eq_true]
    rw [quotRemLoopAt_start _ hlen ha haint (by omega)]
    cases quotRemLoop _ _ _ with
    | none => rfl
    | some s =>
      simp only [bind_some, map_some]
      split <;> rfl

/-- The checked run ends with the quotient and the remainder of truncating division. -/
def DividesAt (a b : Bignum) : Prop :=
  ∃ q r, sexpBignumQuotRemAt a b = some (.ok (q, r)) ∧
    a.toInt = q.toInt * b.toInt + r.toInt ∧ |r.toInt| < |b.toInt| ∧
    (r.toInt = 0 ∨ r.toInt.sign = a.toInt.sign)

/-- With `2^31 + 1` digits the index of `sexp_bignum_fxdiv` starts below zero: the dividend
comes back as the quotient. -/
theorem sexpBignumQuotRemAt_wrapped {words : List UInt64}
    (hhi : sexpBignumHi ⟨.pos, words⟩ = 2 ^ 31 + 1) :
    sexpBignumQuotRemAt ⟨.pos, words⟩ ⟨.pos, [2]⟩ =
      some (.ok (.bignum ⟨.pos, words⟩, .fixnum sexpZero)) := by
  have hindex : (wrapInt ((sexpBignumHi ⟨.pos, words⟩ : ℕ) - 1) + 1 - (0 : ℕ)).toNat = 0 := by
    rw [hhi]
    decide
  have hdiv : sexpBignumFxdivAt ⟨.pos, words⟩ 2 0 = some (⟨.pos, words⟩, 0) := by
    rw [sexpBignumFxdivAt, hindex]
    rfl
  show (do
    let out ← sexpBignumFxdivAt ⟨.pos, words⟩ 2 0
    let rem ← storeAt (sexpMakeBignum 1) 0 out.2
    return Except.ok (ExactInt.bignum out.1, sexpBignumNormalize rem)) = _
  rw [hdiv]
  rfl

theorem not_dividesAt_ones (count : ℕ) (hcount : count = 2 ^ 31) :
    ¬ DividesAt ⟨.pos, replicate (count + 1) 1⟩ ⟨.pos, [2]⟩ := by
  have hhi : sexpBignumHi ⟨.pos, replicate (count + 1) 1⟩ = 2 ^ 31 + 1 := by
    have hdigit : (replicate (count + 1) (1 : UInt64)).getD count 0 ≠ 0 := by
      rw [getD_eq_getElem _ _ (by simp), getElem_replicate]
      decide
    rw [sexpBignumHi, length_replicate, Nat.add_sub_cancel]
    obtain ⟨k, rfl⟩ := Nat.exists_eq_succ_of_ne_zero (show count ≠ 0 by omega)
    rw [hiLoop, if_neg hdigit]
    omega
  rintro ⟨q, r, hrun, hvalue, -⟩
  rw [sexpBignumQuotRemAt_wrapped hhi] at hrun
  obtain ⟨rfl, rfl⟩ := Prod.mk.inj (Except.ok.inj (Option.some.inj hrun))
  have hpos : 0 < (⟨.pos, replicate (count + 1) 1⟩ : Bignum).toInt := by
    have hone : 1 ≤ value (replicate (count + 1) (1 : UInt64)) := by
      rw [replicate_succ, value_cons, UInt64.toNat_one]
      omega
    show 0 < Sign.pos.toInt * (value (replicate (count + 1) 1) : ℤ)
    rw [Sign.toInt_pos]
    omega
  have htwo : (⟨.pos, [2]⟩ : Bignum).toInt = 2 := by decide
  rw [toInt_bignum, toInt_fixnum, sexpZero_val, htwo] at hvalue
  omega

end ChibiScheme
