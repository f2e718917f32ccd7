import ChibiScheme.Lib.Limbs
import Mathlib.Data.Int.Bitwise

/-!
# The two's complement of integers and of word lists

An integer has a bit at every position, all of them equal from some position on.  A word list has
the bits of its words.  A list of words holds an integer up to its length when the bits agree, and
what is missing is said by the bit above: it is 1 exactly for the negative numbers.
-/

namespace Limbs

/-! ## Bits of integers -/

theorem testBit_natCast (m i : ℕ) : (m : ℤ).testBit i = m.testBit i := rfl

theorem testBit_neg {m : ℕ} (hpos : 0 < m) (i : ℕ) :
    (-(m : ℤ)).testBit i = !(m - 1).testBit i := by
  obtain ⟨k, rfl⟩ : ∃ k, m = k + 1 := ⟨m - 1, by omega⟩
  rfl

theorem testBit_of_bounds {n : ℤ} {N : ℕ} (hlow : -2 ^ N ≤ n) (hhigh : n < 2 ^ N) {i : ℕ}
    (hi : N ≤ i) : n.testBit i = decide (n < 0) := by
  have hmono : (2 : ℤ) ^ N ≤ 2 ^ i := by exact_mod_cast Nat.pow_le_pow_right (by decide) hi
  cases n with
  | ofNat m =>
    have hlt : m < 2 ^ i := by
      have hcast : ((m : ℕ) : ℤ) < ((2 ^ i : ℕ) : ℤ) := by push_cast; exact hhigh.trans_le hmono
      exact_mod_cast hcast
    have hnot : ¬ Int.ofNat m < 0 := by simp
    rw [decide_eq_false hnot]
    exact Nat.testBit_lt_two_pow hlt
  | negSucc m =>
    have hlt : m < 2 ^ i := by
      have hcast : ((m + 1 : ℕ) : ℤ) ≤ ((2 ^ i : ℕ) : ℤ) := by
        rw [Int.negSucc_eq] at hlow
        push_cast
        omega
      omega
    show (!m.testBit i) = _
    rw [Nat.testBit_lt_two_pow hlt]
    simp [Int.negSucc_lt_zero]

/-- A number whose bits from `N` on are all equal to `b` is below `2 ^ N`, after the negative ones
have been moved up by as much. -/
theorem bounds_of_testBit {n : ℤ} {N : ℕ} {b : Bool} (h : ∀ i, N ≤ i → n.testBit i = b) :
    0 ≤ n + (if b then 2 ^ N else 0) ∧ n + (if b then 2 ^ N else 0) < 2 ^ N ∧ b = decide (n < 0) := by
  cases n with
  | ofNat m =>
    have hlarge : m < 2 ^ (max m N) :=
      Nat.lt_two_pow_self.trans_le (Nat.pow_le_pow_right (by decide) (le_max_left m N))
    have hb : b = false :=
      (h (max m N) (le_max_right m N)).symm.trans (Nat.testBit_lt_two_pow hlarge)
    subst hb
    have hlt : m < 2 ^ N := Nat.lt_pow_two_of_testBit m h
    have hcast : (m : ℤ) < 2 ^ N := by exact_mod_cast hlt
    simpa using hcast
  | negSucc m =>
    have hlarge : m < 2 ^ (max m N) :=
      Nat.lt_two_pow_self.trans_le (Nat.pow_le_pow_right (by decide) (le_max_left m N))
    have hnot : ∀ i, N ≤ i → (!m.testBit i) = b := h
    have hb : b = true := by
      rw [← hnot (max m N) (le_max_right m N), Nat.testBit_lt_two_pow hlarge]
      rfl
    subst hb
    have hlt : m < 2 ^ N :=
      Nat.lt_pow_two_of_testBit m fun i hi => by simpa using hnot i hi
    have hcast : (m : ℤ) < 2 ^ N := by exact_mod_cast hlt
    simp only [if_true, Int.negSucc_eq]
    refine ⟨by omega, by omega, by simp; omega⟩

theorem eq_of_testBit {n : ℤ} {v N : ℕ} {b : Bool} (hv : v < 2 ^ N)
    (hlow : ∀ i, i < N → v.testBit i = n.testBit i) (hhigh : ∀ i, N ≤ i → n.testBit i = b) :
    n = v - if b then 2 ^ N else 0 := by
  obtain ⟨hnonneg, hlt, _⟩ := bounds_of_testBit hhigh
  obtain ⟨w, hw⟩ := Int.eq_ofNat_of_zero_le hnonneg
  have hwlt : w < 2 ^ N := by
    rw [hw] at hlt
    exact_mod_cast hlt
  suffices heq : v = w by
    rw [heq, ← hw]
    ring
  refine Nat.eq_of_testBit_eq fun i => ?_
  rcases Nat.lt_or_ge i N with hi | hi
  · rw [hlow i hi]
    cases b with
    | false =>
      have hn : n = (w : ℤ) := by simpa using hw
      rw [hn, testBit_natCast]
    | true =>
      -- the opposite of `n` is what is missing to `2 ^ N`
      have hn : n = -((2 ^ N - w : ℕ) : ℤ) := by
        rw [if_pos rfl] at hw
        push_cast [hwlt.le]
        omega
      have hpos : 0 < 2 ^ N - w := by omega
      have hbits := Nat.testBit_two_pow_sub_succ (show 2 ^ N - w - 1 < 2 ^ N by omega) i
      rw [show 2 ^ N - (2 ^ N - w - 1 + 1) = w by omega] at hbits
      rw [hn, testBit_neg hpos, hbits]
      simp [hi]
  · rw [Nat.testBit_lt_two_pow (hv.trans_le (Nat.pow_le_pow_right (by decide) hi)),
      Nat.testBit_lt_two_pow (hwlt.trans_le (Nat.pow_le_pow_right (by decide) hi))]

theorem int_eq_of_testBit {m n : ℤ} (h : ∀ i, m.testBit i = n.testBit i) : m = n := by
  cases m with
  | ofNat a =>
    have hhigh : ∀ i, a ≤ i → n.testBit i = false := fun i hi =>
      (h i).symm.trans (Nat.testBit_lt_two_pow
        (Nat.lt_two_pow_self.trans_le (Nat.pow_le_pow_right (by decide) hi)))
    have heq := eq_of_testBit Nat.lt_two_pow_self (fun i _ => h i) hhigh
    simpa using heq.symm
  | negSucc a =>
    have hhigh : ∀ i, a ≤ i → (Int.lnot n).testBit i = false := fun i hi => by
      rw [Int.testBit_lnot, ← h i]
      show (!!a.testBit i) = false
      rw [Nat.testBit_lt_two_pow
        (Nat.lt_two_pow_self.trans_le (Nat.pow_le_pow_right (by decide) hi))]
      rfl
    have hlow : ∀ i, i < a → a.testBit i = (Int.lnot n).testBit i := fun i _ => by
      rw [Int.testBit_lnot, ← h i]
      show _ = !!a.testBit i
      simp
    have heq := eq_of_testBit Nat.lt_two_pow_self hlow hhigh
    have hlnot : Int.lnot n = a := by simpa using heq
    cases n with
    | ofNat b => simp [Int.lnot] at hlnot
    | negSucc b =>
      have hab : (b : ℤ) = a := hlnot
      rw [Int.natCast_inj.mp hab]

theorem testBit_two_pow_sub {m N i : ℕ} (hpos : 0 < m) (hle : m ≤ 2 ^ N) (hi : i < N) :
    (2 ^ N - m).testBit i = (-(m : ℤ)).testBit i := by
  have hbits := Nat.testBit_two_pow_sub_succ (show m - 1 < 2 ^ N by omega) i
  rw [show m - 1 + 1 = m by omega] at hbits
  rw [hbits, testBit_neg hpos]
  simp [hi]

/-! ## Bits of word lists -/

theorem base_pow_eq (count : ℕ) : base ^ count = 2 ^ (64 * count) := by
  rw [base, ← pow_mul]

theorem value_lt_two_pow (words : List UInt64) : value words < 2 ^ (64 * words.length) := by
  rw [← base_pow_eq]
  exact value_lt words

theorem testBit_value (words : List UInt64) (i : ℕ) :
    (value words).testBit i = (words.getD (i / 64) 0).toNat.testBit (i % 64) := by
  induction words generalizing i with
  | nil => simp
  | cons word words ih =>
    have hword : word.toNat < 2 ^ 64 := word.toNat_lt
    rw [value_cons, Nat.add_comm, show base = 2 ^ 64 from rfl,
      Nat.testBit_two_pow_mul_add _ hword]
    by_cases hi : i < 64
    · rw [if_pos hi, Nat.div_eq_of_lt hi, Nat.mod_eq_of_lt hi]
      rfl
    · rw [if_neg hi, ih (i - 64)]
      have hdiv : i / 64 = (i - 64) / 64 + 1 := by omega
      have hmod : i % 64 = (i - 64) % 64 := by omega
      rw [hdiv, hmod, List.getD_cons_succ]

theorem value_map_not (words : List UInt64) :
    value (words.map fun word => ~~~word) + value words + 1 = base ^ words.length := by
  induction words with
  | nil => rfl
  | cons word words ih =>
    have hnot : (~~~word).toNat + word.toNat + 1 = base := by
      have hword := toNat_lt_base word
      rw [UInt64.toNat_not]
      have hsize : UInt64.size = base := rfl
      omega
    rw [List.map_cons, value_cons, value_cons, List.length_cons, pow_succ]
    calc (~~~word).toNat + base * value (words.map fun word => ~~~word) +
          (word.toNat + base * value words) + 1
        = ((~~~word).toNat + word.toNat + 1) +
          base * (value (words.map fun word => ~~~word) + value words) := by ring
      _ = base * (value (words.map fun word => ~~~word) + value words + 1) := by rw [hnot]; ring
      _ = base ^ words.length * base := by rw [ih]; ring

end Limbs
