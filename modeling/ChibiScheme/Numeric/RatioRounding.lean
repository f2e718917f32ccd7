import ChibiScheme.Numeric.Compare
import ChibiScheme.Numeric.Subtract

/-!
# Rounding of ratios

`floor`, `ceiling`, `truncate` and `round` of a ratio start from the truncated
quotient of its parts and correct it by one: the sign of the numerator decides
for the first two, and for `round` twice the remainder is compared with the
denominator, or, where the denominator is two, the quotient is made even.
-/

namespace ChibiScheme

open ExactInt

/-- The integer of a result, if there is one. -/
def integerResult : Option IntResult → Option ExactInt
  | some (.integer n) => some n
  | _ => none

/-- `SEXP_TWO` -/
def sexpTwo : Fixnum := sexpMakeFixnum 2

/-- `SEXP_NEG_ONE` -/
def sexpNegOne : Fixnum := sexpMakeFixnum (-1)

/-- `sexp_exact_positivep` -/
def ExactInt.positive : ExactInt → Bool
  | fixnum n => decide (0 < n.val)
  | bignum b => decide (b.sign = .pos)

/-- `sexp_oddp` -/
def sexpOddp : ExactInt → Bool
  | fixnum n => decide (n.val % 2 = 1)
  | bignum b => decide ((b.digit 0).toNat % 2 = 1)

/-! ## The routines

A ratio is given by its numerator and its denominator. -/

variable (num den : ExactInt)

/-- `sexp_ratio_trunc` -/
def sexpRatioTrunc : Option ExactInt := integerResult (quotientInteger num den)

/-- `sexp_ratio_floor` -/
def sexpRatioFloor : Option ExactInt := do
  let q ← integerResult (quotientInteger num den)
  pure (if num.negative then addInteger q (fixnum sexpNegOne) else q)

/-- `sexp_ratio_ceiling` -/
def sexpRatioCeiling : Option ExactInt := do
  let q ← integerResult (quotientInteger num den)
  pure (if num.positive then addInteger q (fixnum sexpOne) else q)

/-- `sexp_ratio_round` -/
def sexpRatioRound : Option ExactInt := do
  let q ← integerResult (quotientInteger num den)
  if den = fixnum sexpTwo ∧ sexpOddp q then
    pure (addInteger q (fixnum (if q.positive then sexpOne else sexpNegOne)))
  else
    let r ← integerResult (remainderInteger num den)
    let r := mulInteger r (fixnum sexpTwo)
    let r := if r.negative then negateExact r else r
    if (compareInteger r den).val > 0 then
      pure (addInteger q (fixnum (if num.negative then sexpNegOne else sexpOne)))
    else pure q

/-- The parts of a canonical ratio, within the `int` counts of the division. -/
structure RatioParts : Prop where
  canonical_num : num.Canonical
  canonical_den : den.Canonical
  one_lt : 1 < den.toInt
  coprime : Int.gcd num.toInt den.toInt = 1
  fits_num : num.FitsInt
  fits_den : den.FitsInt

/-! ## Signs and parity -/

theorem ExactInt.Canonical.positive_iff {x : ExactInt} (hx : x.Canonical) :
    x.positive = true ↔ 0 < x.toInt := by
  cases x with
  | fixnum n => simp [ExactInt.positive]
  | bignum b =>
    have hwide : 2 ^ 62 ≤ b.magnitude := hx.wide
    cases hsign : b.sign <;> simp [ExactInt.positive, Bignum.toInt, hsign]
    omega

theorem sexpOddp_iff (x : ExactInt) : sexpOddp x = true ↔ x.toInt % 2 = 1 := by
  cases x with
  | fixnum n => simp [sexpOddp]
  | bignum b =>
    have hdigit : b.magnitude % 2 = (b.digit 0).toNat % 2 := by
      obtain ⟨sign, data⟩ := b
      cases data with
      | nil => simp [Bignum.magnitude, Bignum.digit]
      | cons word words =>
        have hbase : Limbs.base = 2 ^ 64 := rfl
        simp only [Bignum.magnitude, Bignum.digit, Limbs.value_cons, List.getD_cons_zero, hbase]
        omega
    rw [sexpOddp, decide_eq_true_iff, ← hdigit, toInt_bignum, Bignum.toInt]
    cases b.sign <;> simp <;> omega

@[simp] theorem sexpTwo_val : sexpTwo.val = 2 := by decide

@[simp] theorem sexpNegOne_val : sexpNegOne.val = -1 := by decide

/-! ## The truncated quotient -/

variable {num den}

theorem RatioParts.den_ne (h : RatioParts num den) : den.toInt ≠ 0 := by
  have hden := h.one_lt
  omega

theorem RatioParts.not_min (h : RatioParts num den) : ¬ MinByItsMagnitude num den := by
  have hden := h.one_lt
  have hcoprime := h.coprime
  cases num with
  | bignum b => exact id
  | fixnum n =>
    cases den with
    | fixnum m => exact id
    | bignum b =>
      rintro ⟨hn, hmagnitude⟩
      have habs := b.natAbs_toInt
      have hb : b.toInt = 2 ^ 62 := by
        rw [toInt_bignum] at hden
        omega
      rw [toInt_fixnum, toInt_bignum, hn, hb] at hcoprime
      exact absurd hcoprime (by decide)

theorem RatioParts.divide (h : RatioParts num den) :
    ∃ q r, integerResult (quotientInteger num den) = some q ∧
      integerResult (remainderInteger num den) = some r ∧ q.Canonical ∧ r.Canonical ∧
      q.toInt = num.toInt.tdiv den.toInt ∧ r.toInt = num.toInt.tmod den.toInt := by
  have hne : den ≠ fixnum sexpOne := by
    intro hone
    have hden := h.one_lt
    rw [hone, toInt_fixnum, sexpOne_val] at hden
    omega
  obtain ⟨q, hq, hqval, hqcan⟩ := quotientInteger_spec h.den_ne h.canonical_den.wide h.not_min
  obtain ⟨r, hr, hrval, hrcan⟩ := remainderInteger_spec h.den_ne h.canonical_den.wide h.not_min
  refine ⟨q, r, ?_, ?_, hqcan.resolve_left fun hone => hne hone.1, hrcan, hqval, hrval⟩
  · rw [hq, integerResult]
  · rw [hr, integerResult]

theorem tmod_bounds {n d : ℤ} (hd : 1 < d) (hcoprime : Int.gcd n d = 1) :
    n = n.tdiv d * d + n.tmod d ∧
      (0 < n ∧ 0 ≤ n.tdiv d ∧ 0 < n.tmod d ∧ n.tmod d < d ∨
        n < 0 ∧ n.tdiv d ≤ 0 ∧ n.tmod d < 0 ∧ -d < n.tmod d) := by
  have hidentity := Int.mul_tdiv_add_tmod n d
  rw [mul_comm] at hidentity
  have hne : n.tmod d ≠ 0 := by
    intro hzero
    have hdvd : (d.natAbs : ℤ) ∣ n := Int.natAbs_dvd.mpr (Int.dvd_of_tmod_eq_zero hzero)
    have hgcd : Int.gcd n d = d.natAbs := Nat.gcd_eq_right (Int.natCast_dvd.mp hdvd)
    omega
  refine ⟨hidentity.symm, ?_⟩
  rcases lt_or_ge n 0 with hneg | hnonneg
  · have hrem := Int.tmod_nonneg d (show 0 ≤ -n by omega)
    have hquot := Int.tdiv_nonneg (show 0 ≤ -n by omega) (show 0 ≤ d by omega)
    have hlt := Int.tmod_lt_of_pos (-n) (show 0 < d by omega)
    rw [Int.neg_tmod] at hrem hlt
    rw [Int.neg_tdiv] at hquot
    omega
  · have hrem := Int.tmod_nonneg d hnonneg
    have hquot := Int.tdiv_nonneg hnonneg (show 0 ≤ d by omega)
    have hlt := Int.tmod_lt_of_pos n (show 0 < d by omega)
    have hpos : n ≠ 0 := by
      rintro rfl
      exact hne (Int.zero_tmod d)
    omega

/-! ## The integers next to a ratio -/

section Neighbours

variable {n d z : ℤ}

theorem floor_div_eq (hd : 0 < d) (hlow : z * d ≤ n) (hhigh : n < (z + 1) * d) :
    ⌊(n : ℚ) / d⌋ = z := by
  have hd' : (0 : ℚ) < d := by exact_mod_cast hd
  rw [Int.floor_eq_iff, le_div_iff₀ hd', div_lt_iff₀ hd']
  exact ⟨by exact_mod_cast hlow, by exact_mod_cast hhigh⟩

theorem ceil_div_eq (hd : 0 < d) (hlow : (z - 1) * d < n) (hhigh : n ≤ z * d) :
    ⌈(n : ℚ) / d⌉ = z := by
  have hd' : (0 : ℚ) < d := by exact_mod_cast hd
  rw [Int.ceil_eq_iff, lt_div_iff₀ hd', div_le_iff₀ hd']
  exact ⟨by exact_mod_cast hlow, by exact_mod_cast hhigh⟩

/-- An integer nearest to `x`, the even one of two that are equally near. -/
def NearestEven (x : ℚ) (z : ℤ) : Prop := |x - z| ≤ 1 / 2 ∧ (|x - z| = 1 / 2 → Even z)

theorem nearestEven_div (hd : 0 < d) (hnear : 2 * |n - z * d| ≤ d)
    (htie : 2 * |n - z * d| = d → Even z) : NearestEven (n / d) z := by
  have hd' : (0 : ℚ) < d := by exact_mod_cast hd
  have habs : |(n : ℚ) / d - z| = (|n - z * d| : ℤ) / d := by
    rw [div_sub' (ne_of_gt hd'), abs_div, abs_of_pos hd', mul_comm (d : ℚ)]
    push_cast
    rfl
  rw [NearestEven, habs, div_le_iff₀ hd', div_eq_iff (ne_of_gt hd')]
  constructor
  · have hnear' : ((2 * |n - z * d| : ℤ) : ℚ) ≤ d := by exact_mod_cast hnear
    push_cast at hnear' ⊢
    linarith
  · intro heq
    apply htie
    have htwice : ((2 * |n - z * d| : ℤ) : ℚ) = d := by
      push_cast at heq ⊢
      linarith
    exact_mod_cast htwice

end Neighbours

/-! ## The comparison of `round` -/

theorem words_le_of_natAbs_lt {x : ExactInt} {count : ℕ} (hcount : 1 ≤ count)
    (hlt : x.toInt.natAbs < Limbs.base ^ count) : x.words ≤ count := by
  cases x with
  | fixnum n => exact hcount
  | bignum b =>
    rw [toInt_bignum, b.natAbs_toInt] at hlt
    exact sexpBignumHi_le_of_magnitude_lt hcount hlt

/-- An integer without its sign, as `sexp_ratio_round` makes it. -/
def magnitudeOf (x : ExactInt) : ExactInt := if x.negative then negateExact x else x

theorem magnitudeOf_spec {x : ExactInt} (hx : x.Canonical) (hmin : x.toInt ≠ -2 ^ 62) :
    (magnitudeOf x).Canonical ∧ (magnitudeOf x).toInt = |x.toInt| := by
  have hsign := hx.wide.negative_iff
  unfold magnitudeOf
  split
  · rename_i hneg
    rw [hsign] at hneg
    rw [abs_of_neg hneg]
    exact negateExact_canonical hx hmin (by omega)
  · rename_i hneg
    rw [hsign] at hneg
    exact ⟨hx, (abs_of_nonneg (by omega)).symm⟩

/-- The magnitude is compared with a denominator as it should be.  That of the least
fixnum is still the least fixnum, but then the difference wraps as well. -/
theorem compare_magnitude {t : ExactInt} (h : RatioParts num den) (ht : t.Canonical)
    (hlt : t.toInt.natAbs < 2 * den.toInt.natAbs) :
    (compareInteger (magnitudeOf t) den).val > 0 ↔ den.toInt < |t.toInt| := by
  have hone := h.one_lt
  by_cases hmin : t.toInt = -2 ^ 62
  · cases t with
    | bignum b => exact absurd hmin ht.toInt_ne_min
    | fixnum n =>
      have hval : n.val = -2 ^ 62 := hmin
      have hself : magnitudeOf (fixnum n) = fixnum n := by
        unfold magnitudeOf
        rw [if_pos (by simp [ExactInt.negative, hval]), negateExact, sexpFxNeg_min hval]
      rw [hself, hmin]
      cases den with
      | fixnum m =>
        have hbounds := m.bounds
        rw [toInt_fixnum] at hone ⊢
        have hwrap : (compareInteger (fixnum n) (fixnum m)).val = 2 ^ 62 - m.val := by
          show Int.bmod (n.val - m.val) (2 ^ 63) = _
          have hshift : -2 ^ 62 - m.val + ((2 ^ 63 : ℕ) : ℤ) = 2 ^ 62 - m.val := by
            push_cast
            ring
          rw [hval, ← Int.add_bmod_right, hshift]
          apply Int.bmod_eq_of_le <;> omega
        rw [hwrap, abs_neg, abs_of_pos (by decide)]
        omega
      | bignum b =>
        obtain ⟨-, hsign⟩ := compareFixBig_spec n h.canonical_den
        have hout : ¬ InFixnumRange b.toInt := h.canonical_den
        rw [inFixnumRange_iff] at hout
        rw [toInt_bignum] at hone ⊢
        rw [Int.sign_eq_neg_one_of_neg (a := n.val - b.toInt) (by omega),
          Int.sign_eq_neg_one_iff_neg] at hsign
        have hneg : (compareInteger (fixnum n) (bignum b)).val < 0 := hsign
        rw [abs_neg, abs_of_pos (by decide)]
        omega
  · obtain ⟨hcanonical, hvalue⟩ := magnitudeOf_spec ht hmin
    have hfits := h.fits_den.words_le
    have hwords : (magnitudeOf t).words ≤ den.words + 1 := by
      apply words_le_of_natAbs_lt (by omega)
      rw [hvalue, Int.natAbs_abs, pow_succ']
      calc t.toInt.natAbs < 2 * den.toInt.natAbs := hlt
        _ ≤ Limbs.base * Limbs.base ^ den.words :=
            Nat.mul_le_mul (by decide) (natAbs_lt_words den).le
    have hsign := (sign_compareInteger_iff hcanonical h.canonical_den (by omega)).mpr (by
      intro hx hy
      rw [inFixnumRange_iff] at hx hy ⊢
      have hnonneg := abs_nonneg t.toInt
      omega)
    rw [gt_iff_lt, ← Int.sign_eq_one_iff_pos, hsign, Int.sign_eq_one_iff_pos, hvalue, sub_pos]

/-! ## The results -/

/-- The integer next to a number on the side of zero. -/
def truncation (x : ℚ) : ℤ := if 0 ≤ x then ⌊x⌋ else ⌈x⌉

theorem den_eq_two {n d q r : ℤ} (hcoprime : Int.gcd n d = 1) (hn : n = q * d + r)
    (htie : 2 * |r| = d) : d = 2 := by
  have hdvd : |r| ∣ d := ⟨2, by omega⟩
  have hdvd' : |r| ∣ n := hn ▸ dvd_add (hdvd.mul_left q) ((abs_dvd _ _).mpr dvd_rfl)
  have hone : |r| ∣ 1 := by
    have hgcd := Int.dvd_coe_gcd hdvd' hdvd
    rwa [hcoprime] at hgcd
  have habs := Int.eq_one_of_dvd_one (abs_nonneg r) hone
  omega

theorem sexpRatioRound_value (h : RatioParts num den) :
    ∃ n, sexpRatioRound num den = some n ∧ n.Canonical ∧
      NearestEven (num.toInt / den.toInt) n.toInt := by
  obtain ⟨q, r, hq, hr, hqcan, hrcan, hqval, hrval⟩ := h.divide
  have hd := h.one_lt
  have hpositive := hqcan.positive_iff
  have hnegative := h.canonical_num.wide.negative_iff
  obtain ⟨hidentity, hcases⟩ := tmod_bounds hd h.coprime
  rw [← hqval, ← hrval] at hidentity hcases
  unfold sexpRatioRound
  rw [hq, Option.bind_eq_bind, Option.bind_some]
  split
  · -- a half, and an odd quotient
    rename_i hhalf
    obtain ⟨htwo, hodd⟩ := hhalf
    rw [sexpOddp_iff] at hodd
    have hden : den.toInt = 2 := by
      rw [htwo]
      exact sexpTwo_val
    obtain ⟨hsum, hcan⟩ := addInteger_spec q (fixnum (if q.positive then sexpOne else sexpNegOne))
    have hstep : (fixnum (if q.positive then sexpOne else sexpNegOne)).toInt =
        if 0 < q.toInt then 1 else -1 := by
      rw [toInt_fixnum, apply_ite Fixnum.val]
      simp only [hpositive, sexpOne_val, sexpNegOne_val]
    refine ⟨_, rfl, hcan, ?_⟩
    have hdiff : |num.toInt - (q.toInt + if 0 < q.toInt then 1 else -1) * den.toInt| = 1 := by
      rw [hden] at hidentity hcases ⊢
      rw [abs_eq (by decide)]
      split <;> omega
    rw [hsum, hstep]
    refine nearestEven_div (by omega) (by rw [hdiff, hden]; decide) fun _ => ?_
    rw [Int.even_iff]
    split <;> omega
  · rename_i hhalf
    obtain ⟨htwice, htcan⟩ := mulInteger_spec r (fixnum sexpTwo)
    rw [toInt_fixnum, sexpTwo_val] at htwice
    have hcompare := compare_magnitude h htcan (by omega)
    rw [hr, Option.bind_some]
    show ∃ n, (if (compareInteger (magnitudeOf (mulInteger r (fixnum sexpTwo))) den).val > 0 then
      some (addInteger q (fixnum (if num.negative then sexpNegOne else sexpOne))) else some q) =
        some n ∧ _
    -- twice the rest against the denominator decides
    by_cases hgt : den.toInt < |(mulInteger r (fixnum sexpTwo)).toInt|
    · rw [if_pos (hcompare.mpr hgt)]
      obtain ⟨hsum, hcan⟩ :=
        addInteger_spec q (fixnum (if num.negative then sexpNegOne else sexpOne))
      have hstep : (fixnum (if num.negative then sexpNegOne else sexpOne)).toInt =
          if num.toInt < 0 then -1 else 1 := by
        rw [toInt_fixnum, apply_ite Fixnum.val]
        simp only [hnegative, sexpOne_val, sexpNegOne_val]
      refine ⟨_, rfl, hcan, ?_⟩
      have hdiff : 2 * |num.toInt - (q.toInt + if num.toInt < 0 then -1 else 1) * den.toInt| <
          den.toInt := by
        rw [htwice, abs_mul, abs_two] at hgt
        rcases hcases with ⟨hnum, -, hrem, hlt⟩ | ⟨hnum, -, hrem, hlt⟩
        · have hz : num.toInt - (q.toInt + 1) * den.toInt = r.toInt - den.toInt := by linarith
          rw [if_neg (by omega), hz, abs_of_neg (by omega)]
          rw [abs_of_pos hrem] at hgt
          omega
        · have hz : num.toInt - (q.toInt + -1) * den.toInt = r.toInt + den.toInt := by linarith
          rw [if_pos hnum, hz, abs_of_pos (by omega)]
          rw [abs_of_neg hrem] at hgt
          omega
      rw [hsum, hstep]
      exact nearestEven_div (by omega) hdiff.le fun htie => absurd htie hdiff.ne
    · rw [if_neg fun hlt => hgt (hcompare.mp hlt)]
      refine ⟨q, rfl, hqcan, ?_⟩
      have hdiff : num.toInt - q.toInt * den.toInt = r.toInt := by omega
      rw [htwice, abs_mul, abs_two] at hgt
      refine nearestEven_div (by omega) (by rw [hdiff]; omega) fun htie => ?_
      rw [hdiff] at htie
      have hden := den_eq_two h.coprime hidentity htie
      have htwo : den = fixnum sexpTwo := by
        cases den with
        | fixnum m => exact congrArg fixnum (Fixnum.ext hden)
        | bignum b => exact absurd (by rw [toInt_bignum] at hden; rw [hden]; decide) h.canonical_den
      have hodd : ¬ q.toInt % 2 = 1 := fun hodd => hhalf ⟨htwo, (sexpOddp_iff q).mpr hodd⟩
      rw [Int.even_iff]
      omega

end ChibiScheme
