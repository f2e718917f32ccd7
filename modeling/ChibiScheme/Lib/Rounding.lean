import Mathlib

/-!
# Rounding to a binary significand

A natural number is rounded to a given number of binary digits, and a tie goes to the even neighbour.
-/

namespace Rounding

/-- The neighbour of `n` in the multiples of `unit`. -/
def nearest (unit n : ℕ) : ℕ :=
  let q := n / unit
  let r := n % unit
  if 2 * r < unit ∨ (2 * r = unit ∧ q % 2 = 0) then q * unit else (q + 1) * unit

/-- The distance between the numbers with `digits` binary digits around `n`. -/
def unit (digits n : ℕ) : ℕ :=
  2 ^ (Nat.log 2 n + 1 - digits)

/-- `n` with `digits` binary digits. -/
def round (digits n : ℕ) : ℕ :=
  nearest (unit digits n) n

theorem nearest_one (n : ℕ) : nearest 1 n = n := by
  unfold nearest
  simp only [Nat.mod_one, Nat.div_one, Nat.mul_zero, Nat.zero_lt_one, true_or, if_true, Nat.mul_one]

theorem dvd_nearest (unit n : ℕ) : unit ∣ nearest unit n := by
  show unit ∣ if _ then _ else _
  split
  · exact Nat.dvd_mul_left _ _
  · exact Nat.dvd_mul_left _ _

theorem unit_pos (digits n : ℕ) : 0 < unit digits n :=
  Nat.pow_pos Nat.two_pos

theorem nearest_of_dvd {unit n : ℕ} (hpos : 0 < unit) (hdvd : unit ∣ n) : nearest unit n = n := by
  unfold nearest
  dsimp only
  rw [Nat.mod_eq_zero_of_dvd hdvd, if_pos (.inl hpos), Nat.div_mul_cancel hdvd]

/-- The numbers with that many binary digits. -/
def Representable (digits n : ℕ) : Prop := unit digits n ∣ n

theorem Representable.round_eq {digits n : ℕ} (hrep : Representable digits n) : round digits n = n :=
  nearest_of_dvd (unit_pos digits n) hrep

theorem representable_of_lt {digits n : ℕ} (hdigits : digits ≠ 0) (hlt : n < 2 ^ digits) :
    Representable digits n := by
  have hlog := Nat.log_lt_of_lt_pow' hdigits hlt
  unfold Representable unit
  rw [show Nat.log 2 n + 1 - digits = 0 by omega, Nat.pow_zero]
  exact Nat.one_dvd n

theorem representable_two_pow {digits : ℕ} (hdigits : digits ≠ 0) (k : ℕ) :
    Representable digits (2 ^ k) := by
  unfold Representable unit
  rw [Nat.log_pow Nat.one_lt_two]
  exact Nat.pow_dvd_pow 2 (by omega)

theorem nearest_le {unit n m : ℕ} (hle : n ≤ m) (hdvd : unit ∣ m) : nearest unit n ≤ m := by
  obtain ⟨c, rfl⟩ := hdvd
  have hdiv := Nat.div_add_mod n unit
  unfold nearest
  dsimp only
  split
  · calc n / unit * unit ≤ n := Nat.div_mul_le_self n unit
      _ ≤ unit * c := hle
  · rename_i hup
    have hpos : 0 < n % unit ∨ unit = 0 := by omega
    obtain hpos | rfl := hpos
    · have hlt : n / unit < c := by
        refine Nat.lt_of_mul_lt_mul_left (a := unit) ?_
        omega
      rw [Nat.mul_comm]
      exact Nat.mul_le_mul_left unit hlt
    · simp

theorem le_nearest {unit n m : ℕ} (hle : m ≤ n) (hdvd : unit ∣ m) : m ≤ nearest unit n := by
  obtain ⟨c, rfl⟩ := hdvd
  unfold nearest
  dsimp only
  obtain rfl | hpos := Nat.eq_zero_or_pos unit
  · simp
  · have hc : c ≤ n / unit := (Nat.le_div_iff_mul_le hpos).mpr (by rwa [Nat.mul_comm])
    rw [Nat.mul_comm unit c]
    split
    · exact Nat.mul_le_mul_right unit hc
    · exact Nat.mul_le_mul_right unit (Nat.le_succ_of_le hc)

/-- A rounded number has that many digits: it is below the next power of two, or it is that power. -/
theorem representable_round {digits : ℕ} (hdigits : digits ≠ 0) (n : ℕ) :
    Representable digits (round digits n) := by
  obtain rfl | hpos := Nat.eq_zero_or_pos n
  · have hzero : round digits 0 = 0 := nearest_of_dvd (unit_pos digits 0) (Nat.dvd_zero _)
    rw [hzero]
    exact Nat.dvd_zero _
  have hnext : round digits n ≤ 2 ^ (Nat.log 2 n + 1) :=
    nearest_le (Nat.lt_pow_succ_log_self Nat.one_lt_two n).le (Nat.pow_dvd_pow 2 (by omega))
  have hfloor : 2 ^ Nat.log 2 n ≤ round digits n :=
    le_nearest (Nat.pow_log_le_self 2 hpos.ne') (Nat.pow_dvd_pow 2 (by omega))
  obtain heq | hlt := hnext.eq_or_lt
  · rw [heq]
    exact representable_two_pow hdigits _
  · have hlog : Nat.log 2 (round digits n) = Nat.log 2 n :=
      Nat.log_eq_of_pow_le_of_lt_pow hfloor hlt
    have hdvd := dvd_nearest (unit digits n) n
    unfold Representable
    rwa [show unit digits (round digits n) = unit digits n by unfold unit; rw [hlog]]

end Rounding
