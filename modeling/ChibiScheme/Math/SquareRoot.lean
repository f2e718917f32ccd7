import Mathlib.Data.Nat.Size
import Mathlib.Tactic.Linarith
import Mathlib.Tactic.Ring

/-!
# The exact integer square root

`sexp_bignum_sqrt` starts from an estimate of the root and takes the mean of `res` and `a / res`
until the remainder shows that `res` is the root.  The numbers are exact integers, `none` is an
exception object: the arithmetic passes it on, and it counts as positive.
-/

namespace ChibiScheme.SquareRoot

/-- A binary operation on exact integers. -/
def exactly (op : ℤ → ℤ → Option ℤ) (a b : Option ℤ) : Option ℤ := do op (← a) (← b)

/-- `sexp_add`; `none` is an inexact number. -/
def add : Option ℤ → Option ℤ → Option ℤ := exactly fun a b => some (a + b)

/-- `sexp_sub` -/
def sub : Option ℤ → Option ℤ → Option ℤ := exactly fun a b => some (a - b)

/-- `sexp_mul` -/
def mul : Option ℤ → Option ℤ → Option ℤ := exactly fun a b => some (a * b)

/-- `sexp_quotient` -/
def quotient : Option ℤ → Option ℤ → Option ℤ :=
  exactly fun a b => if b = 0 then none else some (a.tdiv b)

/-- `sexp_compare`: the sign of the result is the sign of the difference. -/
def compare : Option ℤ → Option ℤ → Option ℤ := sub

/-- `sexp_positivep`: not negative. -/
def positivep : Option ℤ → Bool
  | none => true
  | some n => 0 ≤ n

/-- The code at the label `adjust`. -/
def adjust (a res : Option ℤ) : Option ℤ := quotient (add res (quotient a res)) (some 2)

/-- The loop of `sexp_bignum_sqrt`: root and remainder. -/
def sqrtLoop (a : Option ℤ) : ℕ → Option ℤ → Option (Option ℤ × Option ℤ)
  | 0, _ => none
  | fuel + 1, res =>
    let rem := sub a (mul res res)
    if !positivep rem then sqrtLoop a fuel (adjust a res)
    else
      let tmp := compare (quotient (sub rem (some 1)) (some 2)) res
      if positivep tmp then sqrtLoop a fuel (adjust a res) else some (res, rem)

/-- `sexp_bignum_sqrt_estimate`.  The number of bits, `nbits`, is an `int` there, so it has to be below
`2 ^ 31`. -/
def sexpBignumSqrtEstimate (a : ℤ) : ℤ :=
  2 ^ (a.natAbs.size / 2)

/-- The flonum that `sexp_inexact_sqrt` returns: infinite, or of this integer part; then it matters
whether it is beyond `SEXP_MAX_ACCURATE_FLONUM_SQRT`. -/
inductive Root where
  | infinite
  | finite (integerPart : ℤ) (large : Bool)

/-- `sexp_bignum_sqrt` -/
def sexpBignumSqrt (fuel : ℕ) (a : ℤ) (root : Root) : Option (Option ℤ × Option ℤ) :=
  let a := |a|
  match root with
  | .infinite => sqrtLoop (some a) fuel (some (sexpBignumSqrtEstimate a))
  | .finite n true => sqrtLoop (some a) fuel (some n)
  | .finite n false => some (some n, some (a - n * n))

/-! ## The iteration -/

/-- The next approximation, in integers. -/
def mean (a res : ℤ) : ℤ := (res + a / res) / 2

variable {a res : ℤ}

theorem adjust_some (ha : 0 ≤ a) (hres : 0 < res) :
    adjust (some a) (some res) = some (mean a res) := by
  have hquot : 0 ≤ a / res := Int.ediv_nonneg ha hres.le
  have hsum : 0 ≤ res + a / res := by omega
  simp only [adjust, quotient, add, exactly, Option.bind_eq_bind, Option.bind_some, if_neg hres.ne',
    Int.tdiv_eq_ediv_of_nonneg ha]
  rw [if_neg (by decide), Int.tdiv_eq_ediv_of_nonneg hsum]
  rfl

theorem le_half {rem : ℤ} (hrem : 0 ≤ rem) (hres : 0 < res) :
    res ≤ (rem - 1).tdiv 2 ↔ 2 * res + 1 ≤ rem := by
  obtain rfl | hpos := eq_or_lt_of_le hrem
  · have hzero : (0 - 1 : ℤ).tdiv 2 = 0 := rfl
    omega
  · rw [Int.tdiv_eq_ediv_of_nonneg (by omega)]
    omega

theorem sqrtLoop_succ (ha : 0 ≤ a) (hres : 0 < res) (fuel : ℕ) :
    sqrtLoop (some a) (fuel + 1) (some res) =
      if res * res ≤ a ∧ a < (res + 1) * (res + 1) then some (some res, some (a - res * res))
      else sqrtLoop (some a) fuel (some (mean a res)) := by
  have hsquare : (res + 1) * (res + 1) = res * res + 2 * res + 1 := by ring
  rw [sqrtLoop, adjust_some ha hres]
  simp only [sub, mul, compare, quotient, exactly, Option.bind_eq_bind, Option.bind_some, positivep]
  by_cases hle : res * res ≤ a
  · have hhalf := le_half (sub_nonneg.mpr hle) hres
    by_cases hlt : a < (res + 1) * (res + 1)
    · have htest : ¬ res ≤ (a - res * res - 1).tdiv 2 := by
        rw [hhalf]
        omega
      simp [hle, hlt, htest]
    · have htest : res ≤ (a - res * res - 1).tdiv 2 := by
        rw [hhalf]
        omega
      simp [hle, hlt, htest]
  · simp [hle]

theorem le_mean {s : ℤ} (hle : s * s ≤ a) (hres : 0 < res) : s ≤ mean a res := by
  have hquot : 2 * s - res ≤ a / res := by
    apply Int.le_ediv_of_mul_le hres
    have hsquare : 0 ≤ (s - res) * (s - res) := mul_self_nonneg _
    calc (2 * s - res) * res = s * s - (s - res) * (s - res) := by ring
      _ ≤ a := by omega
  unfold mean
  omega

theorem mean_lt (hres : 0 < res) (hlt : a < res * res) : mean a res < res := by
  have hquot : a / res < res := Int.ediv_lt_of_lt_mul hres hlt
  unfold mean
  omega

theorem sqrtLoop_of_le {s : ℤ} (hs : 0 < s) (hle : s * s ≤ a) (hlt : a < (s + 1) * (s + 1))
    (fuel : ℕ) : ∀ res, s ≤ res → (res - s).toNat < fuel →
      sqrtLoop (some a) fuel (some res) = some (some s, some (a - s * s)) := by
  have ha : 0 ≤ a := (mul_self_nonneg s).trans hle
  induction fuel with
  | zero =>
    intro _ _ hfuel
    exact absurd hfuel (Nat.not_lt_zero _)
  | succ fuel ih =>
    intro res hres hfuel
    rw [sqrtLoop_succ ha (hs.trans_le hres)]
    obtain rfl | habove := eq_or_lt_of_le hres
    · rw [if_pos ⟨hle, hlt⟩]
    · have hsquare : (s + 1) * (s + 1) ≤ res * res := by
        apply mul_self_le_mul_self <;> omega
      rw [if_neg fun h => absurd (h.1.trans_lt hlt) (not_lt.mpr hsquare)]
      have hmean := mean_lt (hs.trans_le hres) (hlt.trans_le hsquare)
      exact ih _ (le_mean hle (hs.trans_le hres)) (by omega)

theorem sqrtLoop_root (ha : 0 < a) (hres : 0 < res) : ∃ fuel s, 0 < s ∧
    sqrtLoop (some a) fuel (some res) = some (some s, some (a - s * s)) ∧
    s * s ≤ a ∧ a < (s + 1) * (s + 1) := by
  obtain ⟨n, rfl⟩ := Int.eq_ofNat_of_zero_le ha.le
  have hle : (n.sqrt : ℤ) * n.sqrt ≤ n := by exact_mod_cast Nat.sqrt_le n
  have hlt : (n : ℤ) < (n.sqrt + 1) * (n.sqrt + 1) := by exact_mod_cast Nat.lt_succ_sqrt n
  have hs : (0 : ℤ) < n.sqrt := by exact_mod_cast Nat.sqrt_pos.mpr (by exact_mod_cast ha)
  refine ⟨(mean n res - n.sqrt).toNat + 2, n.sqrt, hs, ?_, hle, hlt⟩
  rw [sqrtLoop_succ ha.le hres]
  split
  · rename_i hroot
    -- An estimate that passes the test is the root.
    have hbelow : res < n.sqrt + 1 := lt_of_mul_self_lt_mul_self₀ (by omega) (hroot.1.trans_lt hlt)
    have habove : (n.sqrt : ℤ) < res + 1 :=
      lt_of_mul_self_lt_mul_self₀ (by omega) (hle.trans_lt hroot.2)
    rw [show res = n.sqrt by omega]
  · exact sqrtLoop_of_le hs hle hlt _ _ (le_mean hle hres) (by omega)

/-- The root of 0 is 0, so that the loop does not start from it; where it starts, the estimate is
infinite or a positive integer below `2 ^ 1024`, as every finite flonum is. -/
def Root.EstimateOf (a : ℤ) : Root → Prop
  | infinite => 0 < a
  | finite n true => 0 < a ∧ 0 < n ∧ n < 2 ^ 1024
  | finite n false => a = 0 ∧ n = 0

/-- `sexp_bignum_sqrt` of a non-negative integer of fewer than `2 ^ 31` bits returns the root and the
remainder from any estimate. -/
theorem sexpBignumSqrt_spec (a : ℤ) (_hbits : a.natAbs.size < 2 ^ 31) (root : Root)
    (hroot : root.EstimateOf a) :
    ∃ fuel s, sexpBignumSqrt fuel a root = some (some s, some (a - s * s)) ∧
      0 ≤ s ∧ s * s ≤ a ∧ a < (s + 1) * (s + 1) := by
  have hnewton : ∀ res, 0 < a → 0 < res →
      (∀ fuel, sexpBignumSqrt fuel a root = sqrtLoop (some a) fuel (some res)) →
      ∃ fuel s, sexpBignumSqrt fuel a root = some (some s, some (a - s * s)) ∧
        0 ≤ s ∧ s * s ≤ a ∧ a < (s + 1) * (s + 1) := by
    intro res ha hres hrun
    obtain ⟨fuel, s, hs, hloop, hle, hlt⟩ := sqrtLoop_root ha hres
    exact ⟨fuel, s, (hrun fuel).trans hloop, hs.le, hle, hlt⟩
  match root with
  | .infinite =>
    have ha : 0 < a := hroot
    refine hnewton (sexpBignumSqrtEstimate a) ha (Int.pow_pos (by decide)) fun fuel => ?_
    simp only [sexpBignumSqrt, abs_of_pos ha]
  | .finite n true =>
    obtain ⟨ha, hn, -⟩ := hroot
    refine hnewton n ha hn fun fuel => ?_
    simp only [sexpBignumSqrt, abs_of_pos ha]
  | .finite n false =>
    obtain ⟨rfl, rfl⟩ := hroot
    exact ⟨0, 0, rfl, le_refl 0, le_refl 0, Int.one_pos⟩

/-- The flonum root of the square of `10 ^ 20 + 1` is too small by one. -/
theorem sexpBignumSqrt_big : ∃ fuel s,
    sexpBignumSqrt fuel ((10 ^ 20 + 1) ^ 2) (.finite (10 ^ 20) true) =
        some (some s, some ((10 ^ 20 + 1) ^ 2 - s * s)) ∧
      0 ≤ s ∧ s * s ≤ (10 ^ 20 + 1) ^ 2 ∧ (10 ^ 20 + 1) ^ 2 < (s + 1) * (s + 1) := by
  have hbits : ((10 ^ 20 + 1) ^ 2 : ℤ).natAbs.size < 2 ^ 31 :=
    (Nat.size_le.mpr (by decide : ((10 ^ 20 + 1) ^ 2 : ℤ).natAbs < 2 ^ 200)).trans_lt (by decide)
  have hflonum : (10 ^ 20 : ℤ) < 2 ^ 1024 :=
    (by decide : (10 ^ 20 : ℤ) < 2 ^ 67).trans (pow_lt_pow_right₀ (by decide) (by decide))
  exact sexpBignumSqrt_spec ((10 ^ 20 + 1) ^ 2) hbits (.finite (10 ^ 20) true)
    ⟨by decide, by decide, hflonum⟩

end ChibiScheme.SquareRoot
