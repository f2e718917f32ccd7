import ChibiScheme.Numeric.BignumDiv

/-!
# `sexp_bignum_quot_rem`

The loop keeps a partial quotient `q` and a remainder `a1` with `|a| = q * b + a1`;
`sign` is the sign `a1` is on, and `x` is the scratch bignum the guess is stored
into, all zero but for the two digits of the last guess.  When the loop ends with
a negative remainder, one more divisor is given back.

The loop has no bound in the source.  Here it takes fuel, and
`quotRemLoop_spec` shows that a fuel above the magnitude of the dividend is
never used up.
-/

namespace ChibiScheme

open Limbs ExactInt List

/-- The variables of the loop. -/
structure QuotRemState where
  a1 : Bignum
  q : ExactInt
  x : Bignum
  sign : Sign
  off : ℕ

/-- Store the two digits of a guess at `off`. -/
def storeGuess (x : Bignum) (off : ℕ) (dhi dlo : UInt64) : Bignum :=
  let x := x.setDigit off dhi
  if off > 0 then x.setDigit (off - 1) dlo else x

/-- One pass of the loop. -/
def quotRemStep (b1 : Bignum) (s : QuotRemState) : QuotRemState :=
  let x := storeGuess s.x s.off 0 0
  let d := (guessQuotient s.a1 b1).1
  let off := (guessQuotient s.a1 b1).2
  let dhi := luintToUint (luintShr d 64)
  let dlo := luintToUint
    (luintAnd d (luintSub (luintShl (luintFromUint 1) 64) (luintFromUint 1)))
  let x := storeGuess x off dhi dlo
  let y := sexpBignumMul b1 x
  let a1 := if s.sign = .neg then sexpBignumAdd none s.a1 y else sexpBignumSub none s.a1 y
  let q := if s.sign = .neg then subInteger s.q (.bignum x) else addInteger s.q (.bignum x)
  if a1.sign ≠ s.sign then
    { a1 := a1.withSign s.sign.flip, q := q, x := x, sign := s.sign.flip, off := off }
  else { a1 := a1, q := q, x := x, sign := s.sign, off := off }

/-- The loop, while the remainder is not below the divisor. -/
def quotRemLoop (b1 : Bignum) : ℕ → QuotRemState → Option QuotRemState
  | 0, _ => none
  | fuel + 1, s =>
    if sexpBignumCompareAbs s.a1 b1 ≥ 0 then quotRemLoop b1 fuel (quotRemStep b1 s) else some s

/-- `sexp_negate_exact` on an exact integer. -/
def negateExact : ExactInt → ExactInt
  | fixnum n => fixnum (sexpFxNeg n)
  | bignum b => bignum b.negate

/-- `sexp_bignum_quot_rem`: quotient and remainder, or the exception text.
`none` is a loop that has not ended. -/
def sexpBignumQuotRem (a b : Bignum) : Option (Except String (ExactInt × ExactInt)) :=
  let blen := sexpBignumHi b
  if blen = 1 ∧ b.digit 0 = 0 then some (.error "divide by zero")
  else
    let a1 := (sexpCopyBignum a 0).withSign .pos
    let finish : ExactInt × ExactInt → Except String (ExactInt × ExactInt) := fun (q, r) =>
      .ok (if a.sign.mul b.sign = .neg then negateExact q else q,
        if a.sign = .neg then negateExact r else r)
    if blen = 1 then
      let out := sexpBignumFxdiv a1 (b.digit 0) 0
      some (finish (.bignum out.1,
        sexpBignumNormalize ((sexpMakeBignum 1).setDigit 0 out.2)))
    else
      let b1 := (sexpCopyBignum b 0).withSign .pos
      let start : QuotRemState :=
        { a1 := a1, q := .fixnum sexpZero, x := sexpMakeBignum a.data.length, sign := .pos,
          off := 0 }
      (quotRemLoop b1 (a.magnitude + 1) start).map fun s =>
        let r := sexpBignumNormalize s.a1
        if s.sign = .neg ∧ r ≠ .fixnum sexpZero then
          finish (subInteger s.q (.fixnum sexpOne), addInteger r (.bignum b1))
        else finish (s.q, r)

/-! ## The scratch bignum -/

/-- `x` is zero but for the two digits at `off`. -/
structure Scratch (x : Bignum) (off len : ℕ) : Prop where
  sign : x.sign = .pos
  cleared : (storeGuess x off 0 0).data = List.replicate len 0

theorem scratch_start (len : ℕ) : Scratch (sexpMakeBignum len) 0 len where
  sign := rfl
  cleared := by simp [storeGuess, Bignum.setDigit, sexpMakeBignum]

theorem storeGuess_spec {x : Bignum} {len off : ℕ} (dhi dlo : UInt64) (hsign : x.sign = .pos)
    (hdata : x.data = List.replicate len 0) (hpos : 1 ≤ off) (hlt : off < len) :
    Scratch (storeGuess x off dhi dlo) off len ∧
      (storeGuess x off dhi dlo).magnitude =
        (dlo.toNat + base * dhi.toNat) * base ^ (off - 1) := by
  have hstore : storeGuess x off dhi dlo =
      ⟨.pos, ((List.replicate len 0).set off dhi).set (off - 1) dlo⟩ := by
    simp [storeGuess, Bignum.setDigit, hdata, hsign, show off > 0 by omega]
  rw [hstore]
  constructor
  · refine ⟨rfl, ?_⟩
    simp only [storeGuess, Bignum.setDigit, if_pos (show off > 0 by omega)]
    apply ext_getElem?
    intro i
    simp only [getElem?_set, getElem?_replicate, length_set, length_replicate]
    grind
  · have houter := value_set ((List.replicate len (0 : UInt64)).set off dhi)
      (i := off - 1) (by simp; omega) dlo
    have hinner := value_set (List.replicate len (0 : UInt64)) (i := off)
      (by simpa using hlt) dhi
    have hpow : base ^ off = base ^ (off - 1) * base := by
      rw [← pow_succ, Nat.sub_add_cancel hpos]
    simp only [value_replicate_zero, getElem_replicate, UInt64.toNat_zero, mul_zero,
      add_zero, zero_add] at hinner
    rw [getElem_set_of_ne (by omega), getElem_replicate, hinner, hpow] at houter
    simp only [UInt64.toNat_zero, mul_zero, add_zero] at houter
    rw [Bignum.magnitude, houter]
    ring

theorem guess_halves (d : LUInt) :
    (luintToUint (luintAnd d (luintSub (luintShl (luintFromUint 1) 64) (luintFromUint 1)))).toNat +
        base * (luintToUint (luintShr d 64)).toNat = d.toNat := by
  have hmask : (luintSub (luintShl (luintFromUint 1) 64) (luintFromUint 1)).toNat = 2 ^ 64 - 1 := by
    decide
  have hlow : (luintAnd d (luintSub (luintShl (luintFromUint 1) 64) (luintFromUint 1))).toNat =
      d.toNat % base := by
    rw [luintAnd, BitVec.toNat_and, hmask, Nat.and_two_pow_sub_one_eq_mod]
    rfl
  have hhigh : (luintShr d 64).toNat = d.toNat / base := luintShr_toNat d 64
  have hlt : d.toNat / base < base := by
    rw [Nat.div_lt_iff_lt_mul base_pos, ← pow_two]
    exact luint_toNat_lt d
  rw [luintToUint_toNat, hlow, Nat.mod_mod, luintToUint_toNat, hhigh, Nat.mod_eq_of_lt hlt]
  exact Nat.mod_add_div _ _

/-! ## The loop invariant -/

/-- What holds each time the loop test is reached, for a dividend `a` and a
divisor of magnitude `b1.magnitude`. -/
structure QuotRemInv (a b1 : Bignum) (s : QuotRemState) : Prop where
  /-- The remainder is on the side `sign` says. -/
  sign : s.a1.sign = s.sign
  /-- Nothing is lost between the quotient and the remainder. -/
  identity : (a.magnitude : ℤ) = s.q.toInt * b1.magnitude + s.a1.toInt
  /-- The remainder never outgrows the dividend. -/
  bounded : s.a1.magnitude ≤ a.magnitude
  scratch : Scratch s.x s.off a.data.length

private theorem storeGuess_zero_sign (x : Bignum) (off : ℕ) :
    (storeGuess x off 0 0).sign = x.sign := by
  unfold storeGuess Bignum.setDigit
  split <;> rfl

/-- The scratch bignum after a pass. -/
def guessed (b1 : Bignum) (s : QuotRemState) : Bignum :=
  let d := (guessQuotient s.a1 b1).1
  storeGuess (storeGuess s.x s.off 0 0) (guessQuotient s.a1 b1).2 (luintToUint (luintShr d 64))
    (luintToUint (luintAnd d (luintSub (luintShl (luintFromUint 1) 64) (luintFromUint 1))))

/-- The remainder after a pass. -/
def reduced (b1 : Bignum) (s : QuotRemState) : Bignum :=
  if s.sign = .neg then sexpBignumAdd none s.a1 (sexpBignumMul b1 (guessed b1 s))
  else sexpBignumSub none s.a1 (sexpBignumMul b1 (guessed b1 s))

theorem quotRemStep_eq (b1 : Bignum) (s : QuotRemState) :
    quotRemStep b1 s =
      { a1 := reduced b1 s
        q := if s.sign = .neg then subInteger s.q (.bignum (guessed b1 s))
          else addInteger s.q (.bignum (guessed b1 s))
        x := guessed b1 s
        sign := (reduced b1 s).sign
        off := (guessQuotient s.a1 b1).2 } := by
  have hflip : ∀ r : Bignum, r.sign ≠ s.sign → r.withSign s.sign.flip = r := by
    intro r hne
    have hsign : s.sign.flip = r.sign := by
      cases hr : r.sign <;> cases hs : s.sign <;> simp_all [Sign.flip]
    rw [hsign]
    rfl
  show (if (reduced b1 s).sign ≠ s.sign then _ else _) = _
  split
  · rename_i hne
    have hkeep := hflip _ hne
    rw [show (reduced b1 s).sign = s.sign.flip from (congrArg Bignum.sign hkeep).symm]
    exact congrArg (fun r => QuotRemState.mk r _ _ _ _) hkeep
  · rename_i heq
    rw [not_not.mp heq]
    rfl

theorem reduced_toInt (b1 : Bignum) {s : QuotRemState} (hsign : s.a1.sign = s.sign) :
    (reduced b1 s).toInt =
      s.sign.toInt * (s.a1.magnitude - b1.toInt * (guessed b1 s).toInt) := by
  unfold reduced
  split
  · rename_i hneg
    rw [sexpBignumAdd_toInt (.inl rfl), sexpBignumMul_toInt, Bignum.toInt, hsign, hneg]
    simp only [Sign.toInt_neg]
    ring
  · rename_i hpos
    have hpos : s.sign = .pos := by
      cases hs : s.sign
      · rfl
      · exact absurd hs hpos
    rw [sexpBignumSub_toInt, sexpBignumMul_toInt, Bignum.toInt, hsign, hpos]
    simp only [Sign.toInt_pos]
    ring

/-- One pass keeps the invariant and makes the remainder smaller. -/
theorem quotRemStep_inv {a b1 : Bignum} {s : QuotRemState} (hinv : QuotRemInv a b1 s)
    (hb1 : b1.sign = .pos) (hlen : 2 ≤ sexpBignumHi b1) (hle : b1.magnitude ≤ s.a1.magnitude) :
    QuotRemInv a b1 (quotRemStep b1 s) ∧
      (quotRemStep b1 s).a1.magnitude < s.a1.magnitude := by
  obtain ⟨hoff, hoffLe, hguess, htwice⟩ := guessQuotient_spec hlen hle
  have hbase := base_pos
  have hlarge : base ^ 1 ≤ a.magnitude := by
    rw [pow_one]
    exact (base_le_magnitude_of_hi (a := b1) (by omega)).trans (hle.trans hinv.bounded)
  have hroom : (guessQuotient s.a1 b1).2 < a.data.length := by
    have hhi : sexpBignumHi s.a1 ≤ sexpBignumHi a :=
      sexpBignumHi_le_of_magnitude_lt (one_le_sexpBignumHi a)
        (hinv.bounded.trans_lt (magnitude_lt_base_pow_hi a))
    have hlength := sexpBignumHi_le_length_of_one_lt (lt_sexpBignumHi hlarge)
    have hone := lt_sexpBignumHi hlarge
    omega
  obtain ⟨hscratch, hx⟩ := storeGuess_spec (x := storeGuess s.x s.off 0 0)
    (luintToUint (luintShr (guessQuotient s.a1 b1).1 64))
    (luintToUint (luintAnd (guessQuotient s.a1 b1).1
      (luintSub (luintShl (luintFromUint 1) 64) (luintFromUint 1))))
    ((storeGuess_zero_sign _ _).trans hinv.scratch.sign) hinv.scratch.cleared hoff hroom
  rw [guess_halves] at hx
  have hguessed : (guessed b1 s).magnitude =
      (guessQuotient s.a1 b1).1.toNat * base ^ ((guessQuotient s.a1 b1).2 - 1) := hx
  have hxInt : (guessed b1 s).toInt = (guessed b1 s).magnitude := by
    rw [Bignum.toInt, show (guessed b1 s).sign = .pos from hscratch.sign, Sign.toInt_pos, one_mul]
  have hb1Int : b1.toInt = b1.magnitude := by
    rw [Bignum.toInt, hb1, Sign.toInt_pos, one_mul]
  -- the amount taken off lies strictly between zero and twice the remainder
  have hpos : 0 < b1.magnitude * (guessed b1 s).magnitude := by
    have hb1pos : 0 < b1.magnitude := hbase.trans_le (base_le_magnitude_of_hi (by omega))
    rw [hguessed]
    positivity
  have hbound : b1.magnitude * (guessed b1 s).magnitude < 2 * s.a1.magnitude := by
    rw [hguessed, mul_comm]
    exact htwice
  have hreduced := reduced_toInt b1 hinv.sign
  rw [hb1Int, hxInt] at hreduced
  have hidentity := hinv.identity
  rw [Bignum.toInt, hinv.sign] at hidentity
  have hsmaller : (reduced b1 s).magnitude < s.a1.magnitude := by
    rw [← Bignum.natAbs_toInt, hreduced]
    zify at hpos hbound
    cases hs : s.sign
    · simp only [Sign.toInt_pos]
      omega
    · simp only [Sign.toInt_neg]
      omega
  rw [quotRemStep_eq]
  refine ⟨⟨rfl, ?_, hsmaller.le.trans hinv.bounded, hscratch⟩, hsmaller⟩
  rw [hidentity, hreduced]
  cases hs : s.sign
  · have hq := (addInteger_spec s.q (.bignum (guessed b1 s))).1
    simp only [reduceCtorEq, if_false, hq, toInt_bignum, hxInt, Sign.toInt_pos]
    ring
  · have hq := (subInteger_toInt_iff s.q (.bignum (guessed b1 s))).mpr (by
      cases s.q <;> trivial)
    simp only [if_true, hq, toInt_bignum, hxInt, Sign.toInt_neg]
    ring

/-- Fuel above the magnitude of the remainder lets the loop end, with the
invariant and a remainder below the divisor. -/
theorem quotRemLoop_spec {a b1 : Bignum} (hb1 : b1.sign = .pos) (hlen : 2 ≤ sexpBignumHi b1)
    {fuel : ℕ} {s : QuotRemState} (hinv : QuotRemInv a b1 s) (hfuel : s.a1.magnitude < fuel) :
    ∃ last, quotRemLoop b1 fuel s = some last ∧ QuotRemInv a b1 last ∧
      last.a1.magnitude < b1.magnitude := by
  induction fuel generalizing s with
  | zero => omega
  | succ fuel ih =>
    unfold quotRemLoop
    split
    · rename_i hge
      have hle := (sexpBignumCompareAbs_nonneg_iff _ _).mp hge
      obtain ⟨hnext, hsmaller⟩ := quotRemStep_inv hinv hb1 hlen hle
      exact ih hnext (by omega)
    · rename_i hlt
      exact ⟨s, rfl, hinv, (sexpBignumCompareAbs_neg_iff _ _).mp (not_le.mp hlt)⟩

/-! ## Quotient and remainder -/

private theorem divMod_of_identity {m n : ℕ} {q r : ℤ} (hidentity : (m : ℤ) = q * n + r)
    (hnonneg : 0 ≤ r) (hlt : r < n) : q = (m / n : ℕ) ∧ r = (m % n : ℕ) := by
  have hpos : (0 : ℤ) < n := by omega
  have hunique := (Int.ediv_emod_unique (a := (m : ℤ)) hpos).mpr
    ⟨show r + n * q = m by linarith, hnonneg, hlt⟩
  push_cast
  exact ⟨hunique.1.symm, hunique.2.symm⟩

theorem negateExact_toInt {x : ExactInt} (hne : x ≠ .fixnum ⟨sexpMinFixnum, by decide⟩) :
    (negateExact x).toInt = -x.toInt := by
  cases x with
  | fixnum n =>
    apply sexpFxNeg_val
    intro hmin
    exact hne (congrArg _ (Fixnum.ext hmin))
  | bignum b => exact b.toInt_negate

private theorem ne_min_of_nonneg {x : ExactInt} (hnonneg : 0 ≤ x.toInt) :
    x ≠ .fixnum ⟨sexpMinFixnum, by decide⟩ := by
  rintro rfl
  exact absurd hnonneg (by decide)

private theorem normalize_eq_zero_iff (a : Bignum) :
    sexpBignumNormalize a = .fixnum sexpZero ↔ a.toInt = 0 := by
  constructor
  · intro hzero
    rw [← sexpBignumNormalize_toInt, hzero]
    exact sexpZero_val
  · intro hzero
    rw [sexpBignumNormalize_eq, hzero, if_pos (by decide)]
    rfl

private theorem sub_one_exact {q : ExactInt} (hpos : 0 < q.toInt) :
    SubExact q (.fixnum sexpOne) := by
  cases q with
  | fixnum n =>
    have hbounds := n.bounds
    rw [toInt_fixnum] at hpos
    show InFixnumRange (n.val - sexpOne.val)
    rw [inFixnumRange_iff, sexpOne_val]
    omega
  | bignum b => trivial

private theorem hi_one_digit_zero_iff (b : Bignum) :
    sexpBignumHi b = 1 ∧ b.digit 0 = 0 ↔ b.magnitude = 0 := by
  constructor
  · rintro ⟨hone, hzero⟩
    rw [magnitude_of_hi_eq_one hone, hzero]
    rfl
  · intro hzero
    have hone : sexpBignumHi b = 1 :=
      le_antisymm (sexpBignumHi_le_of_magnitude_lt le_rfl (by rw [hzero]; decide))
        (one_le_sexpBignumHi b)
    refine ⟨hone, UInt64.toNat_inj.mp ?_⟩
    rw [← magnitude_of_hi_eq_one hone, hzero]
    rfl

theorem sexpBignumQuotRem_zero (a : Bignum) {b : Bignum} (hb : b.magnitude = 0) :
    sexpBignumQuotRem a b = some (.error "divide by zero") := by
  unfold sexpBignumQuotRem
  exact if_pos ((hi_one_digit_zero_iff b).mpr hb)

private theorem quotRem_magnitudes (a b : Bignum) (hb : b.magnitude ≠ 0) :
    ∃ q r : ExactInt, q.toInt = (a.magnitude / b.magnitude : ℕ) ∧
      r.toInt = (a.magnitude % b.magnitude : ℕ) ∧
      sexpBignumQuotRem a b =
        some (.ok (if a.sign.mul b.sign = .neg then negateExact q else q,
          if a.sign = .neg then negateExact r else r)) := by
  have hnonzero : ¬ (sexpBignumHi b = 1 ∧ b.digit 0 = 0) := fun h =>
    hb ((hi_one_digit_zero_iff b).mp h)
  unfold sexpBignumQuotRem
  simp only [if_neg hnonzero]
  split
  · -- a divisor of one digit
    rename_i hone
    have hdigit := magnitude_of_hi_eq_one hone
    obtain ⟨hquot, hrem⟩ := sexpBignumFxdiv_spec ((sexpCopyBignum a 0).withSign .pos)
      (b := b.digit 0) (by omega)
    refine ⟨_, _, ?_, ?_, rfl⟩
    · rw [toInt_bignum, Bignum.toInt, sexpBignumFxdiv_sign, hquot, hdigit]
      simp [sexpCopyBignum]
    · have hone : ∀ word, ((sexpMakeBignum 1).setDigit 0 word).toInt = word.toNat := by
        intro word
        simp [Bignum.toInt, Bignum.magnitude, sexpMakeBignum, Bignum.setDigit]
      rw [sexpBignumNormalize_toInt, hone, hrem, hdigit]
      rfl
  · -- several digits: the loop, and one step back if it has gone below zero
    rename_i hmany
    have hlen : 2 ≤ sexpBignumHi b := by
      have hone := one_le_sexpBignumHi b
      omega
    set b1 := (sexpCopyBignum b 0).withSign .pos with hb1
    set a1 := (sexpCopyBignum a 0).withSign .pos with ha1
    have hb1mag : b1.magnitude = b.magnitude := by simp [hb1, sexpCopyBignum]
    have ha1mag : a1.magnitude = a.magnitude := by simp [ha1, sexpCopyBignum]
    -- the loop keeps `a = q * b + a1`
    have hstart : QuotRemInv a b1 ⟨a1, .fixnum sexpZero, sexpMakeBignum a.data.length, .pos, 0⟩ :=
      { sign := rfl
        identity := by simp [Bignum.toInt, ha1, sexpCopyBignum]
        bounded := ha1mag.le
        scratch := scratch_start _ }
    obtain ⟨last, hloop, hinv, hlt⟩ := quotRemLoop_spec (show b1.sign = .pos from rfl)
      (show 2 ≤ sexpBignumHi b from hlen) hstart
      (show a1.magnitude < a.magnitude + 1 by omega)
    have hidentity := hinv.identity
    have hb1Int : b1.toInt = b1.magnitude := by simp [hb1, Bignum.toInt]
    have hsigned : last.a1.toInt = last.sign.toInt * last.a1.magnitude := by
      rw [Bignum.toInt, hinv.sign]
    simp only [hloop, Option.map_some]
    split
    · rename_i hnegative
      -- one too many was taken away: it is given back
      obtain ⟨hneg, hne⟩ := hnegative
      rw [hneg, Sign.toInt_neg] at hsigned
      have hbelow : last.a1.toInt < 0 := by
        have hzero := mt (normalize_eq_zero_iff last.a1).mpr hne
        omega
      have hqpos : 0 < last.q.toInt := by
        by_contra hnot
        nlinarith
      have hq := (subInteger_toInt_iff last.q (.fixnum sexpOne)).mpr (sub_one_exact hqpos)
      have hr := (addInteger_spec (sexpBignumNormalize last.a1) (.bignum b1)).1
      rw [toInt_fixnum, sexpOne_val] at hq
      rw [sexpBignumNormalize_toInt, toInt_bignum, hb1Int] at hr
      obtain ⟨hquot, hrem⟩ := divMod_of_identity (m := a.magnitude) (n := b.magnitude)
        (q := (subInteger last.q (.fixnum sexpOne)).toInt)
        (r := (addInteger (sexpBignumNormalize last.a1) (.bignum b1)).toInt)
        (by rw [hq, hr, hidentity, hb1mag]; ring) (by omega) (by omega)
      exact ⟨_, _, hquot, hrem, rfl⟩
    · rename_i hnot
      have hnonneg : 0 ≤ last.a1.toInt := by
        by_contra hbelow
        cases hs : last.sign
        · rw [hs, Sign.toInt_pos] at hsigned
          omega
        · refine hnot ⟨hs, fun hzero => ?_⟩
          rw [normalize_eq_zero_iff] at hzero
          omega
      have habs := last.a1.natAbs_toInt
      obtain ⟨hquot, hrem⟩ := divMod_of_identity (m := a.magnitude) (n := b.magnitude)
        (q := last.q.toInt) (r := (sexpBignumNormalize last.a1).toInt)
        (by rw [sexpBignumNormalize_toInt, hidentity, hb1mag])
        (by rw [sexpBignumNormalize_toInt]; exact hnonneg)
        (by rw [sexpBignumNormalize_toInt]; omega)
      exact ⟨_, _, hquot, hrem, rfl⟩

/-- The guesses end with quotient and remainder. -/
theorem sexpBignumQuotRem_spec (a : Bignum) {b : Bignum} (hb : b.magnitude ≠ 0) :
    ∃ q r, sexpBignumQuotRem a b = some (.ok (q, r)) ∧ q.toInt = a.toInt.tdiv b.toInt ∧
      r.toInt = a.toInt.tmod b.toInt := by
  obtain ⟨q, r, hq, hr, hresult⟩ := quotRem_magnitudes a b hb
  have hqmin := ne_min_of_nonneg (x := q) (by rw [hq]; exact Int.natCast_nonneg _)
  have hrmin := ne_min_of_nonneg (x := r) (by rw [hr]; exact Int.natCast_nonneg _)
  refine ⟨_, _, hresult, ?_, ?_⟩
  · rw [Bignum.toInt, Bignum.toInt, tdiv_signed, ← hq]
    cases hsign : a.sign.mul b.sign
    · simp
    · simp [negateExact_toInt hqmin]
  · rw [Bignum.toInt, tmod_signed, b.natAbs_toInt, ← hr]
    cases hsign : a.sign
    · simp
    · simp [negateExact_toInt hrmin]

end ChibiScheme
