import Mathlib.Tactic.Ring
import Mathlib.Tactic.Linarith

/-!
# Euclid's algorithm with truncated remainders

C's remainder has the sign of the dividend, so Euclid's loop on signed integers
ends in plus or minus the greatest common divisor.  `euclid` keeps the sign the
loop ends with.
-/

namespace Euclid

theorem natAbs_tmod_lt (m : ℤ) {d : ℤ} (hd : d ≠ 0) : (m.tmod d).natAbs < d.natAbs := by
  rw [Int.natAbs_tmod]
  exact Nat.mod_lt _ (Int.natAbs_pos.mpr hd)

/-- The loop on `fuel` passes. -/
def loop : ℕ → ℤ → ℤ → ℤ
  | 0, m, _ => m
  | fuel + 1, m, d => if d = 0 then m else loop fuel d (m.tmod d)

/-- The last nonzero remainder; the magnitude of the divisor bounds the number of
passes. -/
def euclid (m d : ℤ) : ℤ := loop (d.natAbs + 1) m d

theorem loop_eq_of_lt {fuel fuel' : ℕ} {m d : ℤ} (hfuel : d.natAbs < fuel)
    (hfuel' : d.natAbs < fuel') : loop fuel m d = loop fuel' m d := by
  induction fuel generalizing fuel' m d with
  | zero => omega
  | succ fuel ih =>
    cases fuel' with
    | zero => omega
    | succ fuel' =>
      unfold loop
      split
      · rfl
      · rename_i hd
        have hlt := natAbs_tmod_lt m hd
        exact ih (by omega) (by omega)

@[simp] theorem euclid_zero (m : ℤ) : euclid m 0 = m := rfl

theorem euclid_step (m : ℤ) {d : ℤ} (hd : d ≠ 0) : euclid m d = euclid d (m.tmod d) := by
  have hlt := natAbs_tmod_lt m hd
  conv_lhs => rw [euclid, loop, if_neg hd]
  exact loop_eq_of_lt hlt (Nat.lt_succ_self _)

theorem euclid_induction {motive : ℤ → ℤ → Prop} (zero : ∀ m, motive m 0)
    (step : ∀ m d, d ≠ 0 → motive d (m.tmod d) → motive m d) (m d : ℤ) : motive m d := by
  induction hsize : d.natAbs using Nat.strong_induction_on generalizing m d with
  | _ size ih =>
    by_cases hd : d = 0
    · rw [hd]
      exact zero m
    · exact step m d hd (ih _ (hsize ▸ natAbs_tmod_lt m hd) d (m.tmod d) rfl)

theorem gcd_tmod (m d : ℤ) : Int.gcd d (m.tmod d) = Int.gcd m d := by
  have hidentity := Int.tdiv_mul_add_tmod m d
  conv_rhs => rw [← hidentity, Int.gcd_mul_right_add_left, Int.gcd_comm]

theorem natAbs_euclid (m d : ℤ) : (euclid m d).natAbs = Int.gcd m d := by
  induction m, d using euclid_induction with
  | zero m => simp
  | step m d hd ih => rw [euclid_step m hd, ih, gcd_tmod]

theorem euclid_eq_or_lt (m : ℤ) {d : ℤ} (hd : d ≠ 0) :
    euclid m d = d ∨ (euclid m d).natAbs < d.natAbs := by
  rw [euclid_step m hd]
  have hlt := natAbs_tmod_lt m hd
  by_cases hzero : m.tmod d = 0
  · rw [hzero]
    exact .inl (euclid_zero d)
  · right
    calc (euclid d (m.tmod d)).natAbs = Int.gcd d (m.tmod d) := natAbs_euclid _ _
      _ ≤ (m.tmod d).natAbs := Int.gcd_le_natAbs_right _ hzero
      _ < d.natAbs := hlt

theorem euclid_neg_neg (m d : ℤ) : euclid (-m) (-d) = -euclid m d := by
  induction m, d using euclid_induction with
  | zero m => simp
  | step m d hd ih =>
    rw [euclid_step (-m) (neg_ne_zero.mpr hd), euclid_step m hd, Int.neg_tmod, Int.tmod_neg, ih]

end Euclid
