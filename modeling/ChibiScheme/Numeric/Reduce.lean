import ChibiScheme.Lib.Euclid
import ChibiScheme.Numeric.Division

/-!
# Reducing a fraction to lowest terms

The integer side of `sexp_ratio_normalize`: its loop of remainders, the division
of numerator and denominator by what the loop ends with, and the sign
adjustment, on the contents of the objects.

The loop is Euclid's with C's remainder, so it may end in a negative number, and
the denominator it divides may turn negative; that is what the second sign
adjustment is for.  The adjustment negates a fixnum in place.  It promotes a
numerator that is the least fixnum first, but not a denominator.
-/

namespace ChibiScheme

open ExactInt Euclid

/-- The loop of `sexp_ratio_normalize` on contents. -/
def gcdInteger : ℕ → ExactInt → ExactInt → Option ExactInt
  | 0, _, _ => none
  | fuel + 1, x, y =>
    if y = fixnum sexpZero then some x
    else
      match remainderInteger x y with
      | some (.integer r) => gcdInteger fuel y r
      | _ => none

theorem ExactInt.Wide.eq_zero_iff {x : ExactInt} (hwide : x.Wide) : x = fixnum sexpZero ↔ x.toInt = 0 := by
  cases x with
  | fixnum n =>
    rw [ExactInt.fixnum.injEq, eq_sexpZero_iff]
    rfl
  | bignum b =>
    have hmagnitude : 2 ^ 62 ≤ b.magnitude := hwide
    have habs := b.natAbs_toInt
    simp only [reduceCtorEq, toInt_bignum, false_iff]
    omega

theorem ExactInt.Canonical.toInt_ne_min {b : Bignum} (hcanonical : (bignum b).Canonical) :
    b.toInt ≠ -2 ^ 62 := by
  intro hmin
  exact hcanonical ((inFixnumRange_iff _).mpr (by omega))

/-- The loop is Euclid's algorithm. -/
theorem gcdInteger_spec (fuel : ℕ) {x y : ExactInt} (hy : y.Wide)
    (hmin : ¬ MinByItsMagnitude x y) (hfuel : y.toInt.natAbs < fuel) :
    ∃ z, gcdInteger fuel x y = some z ∧ z.toInt = euclid x.toInt y.toInt ∧
      (y.toInt ≠ 0 → z = y ∨ z.Canonical) := by
  induction fuel generalizing x y with
  | zero => omega
  | succ fuel ih =>
    unfold gcdInteger
    split
    · rename_i hzero
      refine ⟨x, rfl, ?_, fun hne => absurd ((hy.eq_zero_iff).mp hzero) hne⟩
      rw [(hy.eq_zero_iff).mp hzero, euclid_zero]
    · rename_i hzero
      have hne : y.toInt ≠ 0 := fun h => hzero ((hy.eq_zero_iff).mpr h)
      obtain ⟨r, hresult, hr, hcanonical⟩ := remainderInteger_spec hne hy hmin
      have hlt := natAbs_tmod_lt x.toInt hne
      have hnext : ¬ MinByItsMagnitude y r := by
        intro hyr
        cases y with
        | bignum b => exact hyr.elim
        | fixnum n =>
          cases r with
          | fixnum m => exact hyr.elim
          | bignum b =>
            obtain ⟨hn, hb⟩ := hyr
            have habs := b.natAbs_toInt
            simp only [toInt_bignum, toInt_fixnum] at hr hlt
            omega
      obtain ⟨z, hz, hvalue, hshape⟩ := ih hcanonical.wide hnext (by omega)
      simp only [hresult]
      refine ⟨z, hz, ?_, fun _ => ?_⟩
      · rw [hvalue, hr, ← euclid_step x.toInt hne]
      by_cases hrzero : r.toInt = 0
      · left
        cases fuel with
        | zero => simp [gcdInteger] at hz
        | succ fuel =>
          rw [gcdInteger, if_pos ((hcanonical.wide.eq_zero_iff).mpr hrzero)] at hz
          exact (Option.some.inj hz).symm
      · rcases hshape hrzero with rfl | hz'
        · exact .inr hcanonical
        · exact .inr hz'

theorem gcdInteger_min (fuel : ℕ) {x y : ExactInt} (hmin : MinByItsMagnitude x y)
    (hfuel : 3 ≤ fuel) : gcdInteger fuel x y = some x := by
  obtain ⟨fuel, rfl⟩ : ∃ k, fuel = k + 3 := ⟨fuel - 3, by omega⟩
  cases x with
  | bignum b => exact hmin.elim
  | fixnum n =>
    cases y with
    | fixnum m => exact hmin.elim
    | bignum b =>
      obtain ⟨hn, hb⟩ := hmin
      have hrem := (divideInteger_min (a := fixnum n) (b := bignum b) ⟨hn, hb⟩).2
      have hne : fixnum n ≠ fixnum sexpZero := by
        intro h
        rw [ExactInt.fixnum.injEq, eq_sexpZero_iff] at h
        omega
      obtain ⟨r, hresult, hr, hcanonical⟩ := remainderInteger_spec (a := bignum b)
        (b := fixnum n) (by simp only [toInt_fixnum]; omega) trivial (fun h => h)
      have hrzero : r = fixnum sexpZero := by
        rw [hcanonical.wide.eq_zero_iff, hr, toInt_bignum, toInt_fixnum, Bignum.toInt,
          tmod_signed, hb, hn]
        cases b.sign <;> decide
      rw [gcdInteger, if_neg (by simp), hrem]
      simp only
      rw [gcdInteger, if_neg hne, hresult, hrzero]
      simp only
      rw [gcdInteger, if_pos rfl]

/-- `xq / yq` is `x / y` in lowest terms, as the loop and the two divisions of
`sexp_ratio_normalize` compute it. -/
structure Reduced (x y z xq yq : ExactInt) : Prop where
  loop : gcdInteger (y.toInt.natAbs + 2) x y = some z
  quotientDen : quotientInteger y z = some (.integer yq)
  quotientNum : quotientInteger x z = some (.integer xq)
  wideDen : yq.Wide
  wideNum : xq.Wide
  wideDivisor : z.Wide
  divisor_ne : z.toInt ≠ 0
  num : xq.toInt * z.toInt = x.toInt
  den : yq.toInt * z.toInt = y.toInt
  coprime : Int.gcd xq.toInt yq.toInt = 1
  /-- The divisor is the one Euclid's loop ends with, unless the denominator
  reduces to a unit. -/
  divisor : z.toInt = euclid x.toInt y.toInt ∨ yq.toInt.natAbs = 1

private theorem coprime_of_mul {m d xq yq z : ℤ} (hz : z ≠ 0) (hnum : xq * z = m)
    (hden : yq * z = d) (habs : z.natAbs = Int.gcd m d) : Int.gcd xq yq = 1 := by
  have hgcd := Int.gcd_mul_right xq z yq
  rw [hnum, hden, ← habs] at hgcd
  have hpos : 0 < z.natAbs := Int.natAbs_pos.mpr hz
  exact (Nat.eq_of_mul_eq_mul_right hpos (by rw [one_mul]; exact hgcd)).symm

private theorem reduced_of_divisor {x y z : ExactInt} (hx : x.Wide) (hy : y.Wide)
    (hne : y.toInt ≠ 0) (hloop : gcdInteger (y.toInt.natAbs + 2) x y = some z) (hz : z.Wide)
    (habs : z.toInt.natAbs = Int.gcd x.toInt y.toInt) (hden : ¬ MinByItsMagnitude y z)
    (hnum : ¬ MinByItsMagnitude x z)
    (hdivisor : z.toInt = euclid x.toInt y.toInt ∨ (y.toInt.tdiv z.toInt).natAbs = 1) :
    ∃ xq yq, Reduced x y z xq yq := by
  have hzne : z.toInt ≠ 0 := by
    intro hzero
    rw [hzero, Int.natAbs_zero] at habs
    exact hne (Int.gcd_eq_zero_iff.mp habs.symm).2
  have hdvdNum : z.toInt ∣ x.toInt := by
    rw [← Int.natAbs_dvd, habs]
    exact Int.gcd_dvd_left ..
  have hdvdDen : z.toInt ∣ y.toInt := by
    rw [← Int.natAbs_dvd, habs]
    exact Int.gcd_dvd_right ..
  obtain ⟨yq, hyq, hyqValue, hyqShape⟩ := quotientInteger_spec hzne hz hden
  obtain ⟨xq, hxq, hxqValue, hxqShape⟩ := quotientInteger_spec hzne hz hnum
  have hwide : ∀ {q a : ExactInt}, a.Wide → (z = fixnum sexpOne ∧ q = a ∨ q.Canonical) → q.Wide := by
    rintro q a ha (⟨-, rfl⟩ | hcanonical)
    · exact ha
    · exact hcanonical.wide
  have hnumValue : xq.toInt * z.toInt = x.toInt := by
    rw [hxqValue, Int.tdiv_mul_cancel hdvdNum]
  have hdenValue : yq.toInt * z.toInt = y.toInt := by
    rw [hyqValue, Int.tdiv_mul_cancel hdvdDen]
  refine ⟨xq, yq, hloop, hyq, hxq, hwide hy hyqShape, hwide hx hxqShape, hz, hzne, hnumValue,
    hdenValue,
    coprime_of_mul hzne hnumValue hdenValue habs, ?_⟩
  rwa [hyqValue]

private theorem divisor_not_exceptional {x y z : ExactInt} (hne : y.toInt ≠ 0)
    (hmin : ¬ MinByItsMagnitude x y) (hvalue : z.toInt = euclid x.toInt y.toInt)
    (hshape : z = y ∨ z.Canonical) : ¬ MinByItsMagnitude y z ∧ ¬ MinByItsMagnitude x z := by
  have hcases := euclid_eq_or_lt x.toInt hne
  constructor
  · intro hyz
    cases y with
    | bignum b => exact hyz.elim
    | fixnum n =>
      cases z with
      | fixnum m => exact hyz.elim
      | bignum b =>
        obtain ⟨hn, hb⟩ := hyz
        have hout := (hshape.resolve_left (by simp)).toInt_ne_min
        have habs := b.natAbs_toInt
        simp only [toInt_fixnum, toInt_bignum] at hcases hvalue
        omega
  · intro hxz
    cases x with
    | bignum b => exact hxz.elim
    | fixnum n =>
      cases z with
      | fixnum m => exact hxz.elim
      | bignum b =>
        obtain ⟨hn, hb⟩ := hxz
        have habs := b.natAbs_toInt
        simp only [toInt_fixnum, toInt_bignum] at hcases hvalue
        rcases hcases with heq | hlt
        · -- the divisor is the denominator, of magnitude `2^62`
          cases y with
          | fixnum m =>
            have hout := (hshape.resolve_left (by simp)).toInt_ne_min
            have hbounds := m.bounds
            simp only [toInt_fixnum] at heq hvalue
            omega
          | bignum c =>
            have hcabs := c.natAbs_toInt
            simp only [toInt_bignum] at heq hvalue
            exact hmin ⟨hn, by omega⟩
        · -- the first pass swaps the operands, the second ends at the least fixnum or below
          have hsmall : n.val.tmod y.toInt = n.val := by
            have hidentity := Int.mul_tdiv_add_tmod n.val y.toInt
            have hdiv : n.val.tdiv y.toInt = 0 := by
              apply Int.natAbs_eq_zero.mp
              rw [Int.natAbs_tdiv]
              exact Nat.div_eq_of_lt (by omega)
            rw [hdiv, mul_zero, zero_add] at hidentity
            exact hidentity
          have hnne : n.val ≠ 0 := by omega
          rw [euclid_step n.val hne, hsmall] at hvalue hlt
          have hout : b.toInt ≠ -2 ^ 62 := by
            rcases hshape with rfl | hcanonical
            · simp only [toInt_bignum] at hlt hvalue
              omega
            · exact hcanonical.toInt_ne_min
          rcases euclid_eq_or_lt y.toInt hnne with heq' | hlt' <;> omega

theorem exists_reduced {x y : ExactInt} (hx : x.Wide) (hy : y.Wide) (hne : y.toInt ≠ 0) :
    ∃ z xq yq, Reduced x y z xq yq := by
  by_cases hmin : MinByItsMagnitude x y
  · cases x with
    | bignum b => exact hmin.elim
    | fixnum n =>
      cases y with
      | fixnum m => exact hmin.elim
      | bignum b =>
        obtain ⟨hn, hb⟩ := hmin
        have habs := b.natAbs_toInt
        have hloop := gcdInteger_min (b.toInt.natAbs + 2) (x := fixnum n) (y := bignum b)
          ⟨hn, hb⟩ (by omega)
        have hsame : b.toInt.natAbs = n.val.natAbs := by omega
        obtain ⟨xq, yq, hreduced⟩ := reduced_of_divisor (x := fixnum n) (z := fixnum n) trivial hy
          hne hloop trivial (by
            simp only [toInt_fixnum, toInt_bignum]
            rw [Int.gcd, hsame, Nat.gcd_self])
          (fun h => h) (fun h => h) (.inr (by
            simp only [toInt_fixnum, toInt_bignum]
            rw [Int.natAbs_tdiv, hsame]
            exact Nat.div_self (by omega)))
        exact ⟨_, xq, yq, hreduced⟩
  · obtain ⟨z, hloop, hvalue, hshape⟩ := gcdInteger_spec (y.toInt.natAbs + 2) hy hmin
      (by omega)
    obtain ⟨hden, hnum⟩ := divisor_not_exceptional hne hmin hvalue (hshape hne)
    have hz : z.Wide := by
      rcases hshape hne with rfl | hcanonical
      · exact hy
      · exact hcanonical.wide
    obtain ⟨xq, yq, hreduced⟩ := reduced_of_divisor hx hy hne hloop hz
      (by rw [hvalue, natAbs_euclid]) hden hnum (.inl hvalue)
    exact ⟨z, xq, yq, hreduced⟩

end ChibiScheme
