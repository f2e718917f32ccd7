import Mathlib.Data.Nat.BitIndices
import Mathlib.Data.Nat.Size
import Mathlib.Data.Nat.Digits.Defs
import Mathlib.Data.Set.Card
import Mathlib.Tactic.IntervalCases

/-!
# Counting bits

The number of 1 bits of a natural number, of its digits and of its predecessor; and bitwise
operations on base 256 digits, which masks keep apart from each other.
-/

namespace Bits

open List

/-- How many bits are set. -/
def ones (m : ℕ) : ℕ := m.bitIndices.length

@[simp] theorem ones_zero : ones 0 = 0 := by simp [ones]

theorem ones_two_mul (m : ℕ) : ones (2 * m) = ones m := by simp [ones]

theorem ones_two_mul_add_one (m : ℕ) : ones (2 * m + 1) = ones m + 1 := by simp [ones]

theorem ones_add_two_pow_mul {a k : ℕ} (ha : a < 2 ^ k) (b : ℕ) :
    ones (a + 2 ^ k * b) = ones a + ones b := by
  induction k generalizing a with
  | zero =>
    obtain rfl : a = 0 := by simpa using ha
    simp
  | succ k ih =>
    have hhalf : a / 2 < 2 ^ k := by
      rw [pow_succ] at ha
      omega
    have hsum := ih hhalf
    rcases Nat.mod_two_eq_zero_or_one a with heven | hodd
    · have hsplit : a + 2 ^ (k + 1) * b = 2 * (a / 2 + 2 ^ k * b) := by
        rw [pow_succ, mul_add, ← mul_assoc, mul_comm 2 (2 ^ k)]
        omega
      have ha : a = 2 * (a / 2) := by omega
      rw [hsplit, ones_two_mul, hsum]
      conv_rhs => rw [ha, ones_two_mul]
    · have hsplit : a + 2 ^ (k + 1) * b = 2 * (a / 2 + 2 ^ k * b) + 1 := by
        rw [pow_succ, mul_add, ← mul_assoc, mul_comm 2 (2 ^ k)]
        omega
      have ha : a = 2 * (a / 2) + 1 := by omega
      rw [hsplit, ones_two_mul_add_one, hsum]
      conv_rhs => rw [ha, ones_two_mul_add_one]
      omega

theorem ncard_testBit (m : ℕ) : Set.ncard {i | m.testBit i = true} = ones m := by
  have hset : {i | m.testBit i = true} = (m.bitIndices.toFinset : Set ℕ) := by
    ext i
    simp
  rw [hset, Set.ncard_coe_finset, toFinset_card_of_nodup Nat.bitIndices_nodup, ones]

theorem ones_eq (m : ℕ) : ones m = m % 2 + ones (m / 2) := by
  rcases Nat.even_or_odd' m with ⟨n, rfl | rfl⟩
  · have hhalf : 2 * n / 2 = n := by omega
    rw [ones_two_mul, hhalf, Nat.mul_mod_right, zero_add]
  · have hhalf : (2 * n + 1) / 2 = n := by omega
    have hmod : (2 * n + 1) % 2 = 1 := by omega
    rw [ones_two_mul_add_one, hhalf, hmod, add_comm]

theorem ones_le_of_lt {m k : ℕ} (h : m < 2 ^ k) : ones m ≤ k := by
  induction k generalizing m with
  | zero =>
    obtain rfl : m = 0 := by simpa using h
    simp
  | succ k ih =>
    have hhalf := @ih (m / 2) (by rw [pow_succ] at h; omega)
    rw [ones_eq]
    omega

theorem ones_le_ones_pred (m : ℕ) : ones m ≤ ones (m - 1) + 1 := by
  induction m using Nat.strong_induction_on with
  | _ m ih =>
    rcases Nat.even_or_odd' m with ⟨n, rfl | rfl⟩
    · rcases Nat.eq_zero_or_pos n with rfl | hpos
      · simp
      · have hpred : 2 * n - 1 = 2 * (n - 1) + 1 := by omega
        have hn := ih n (by omega)
        rw [hpred, ones_two_mul_add_one, ones_two_mul]
        omega
    · rw [Nat.add_sub_cancel, ones_two_mul_add_one, ones_two_mul]

theorem ones_eq_ones_pred_iff {m : ℕ} (hpos : 0 < m) : ones m = ones (m - 1) ↔ m % 4 = 2 := by
  rcases Nat.even_or_odd' m with ⟨n, rfl | rfl⟩
  · have hpred : 2 * n - 1 = 2 * (n - 1) + 1 := by omega
    rw [hpred, ones_two_mul_add_one, ones_two_mul]
    rcases Nat.even_or_odd' n with ⟨p, rfl | rfl⟩
    · have hpred' : 2 * p - 1 = 2 * (p - 1) + 1 := by omega
      have hle := ones_le_ones_pred p
      rw [hpred', ones_two_mul_add_one, ones_two_mul]
      constructor
      · intro heq
        omega
      · intro hmod
        omega
    · rw [Nat.add_sub_cancel, ones_two_mul_add_one, ones_two_mul]
      exact ⟨fun _ => by omega, fun _ => rfl⟩
  · rw [Nat.add_sub_cancel, ones_two_mul_add_one, ones_two_mul]
    constructor
    · intro heq
      omega
    · intro hmod
      omega

theorem testBit_eq_not_pred_iff {m : ℕ} (hpos : 0 < m) (k : ℕ) :
    (m.testBit k = !(m - 1).testBit k) ↔ 2 ^ k ∣ m := by
  have htwo : 0 < 2 ^ k := by positivity
  rw [Nat.testBit_eq_decide_div_mod_eq, Nat.testBit_eq_decide_div_mod_eq]
  by_cases hdvd : 2 ^ k ∣ m
  · obtain ⟨q, rfl⟩ := hdvd
    have hq : 0 < q := Nat.pos_of_mul_pos_left hpos
    have hpred : (2 ^ k * q - 1) / 2 ^ k = q - 1 := by
      have hsplit : 2 ^ k * q - 1 = (2 ^ k - 1) + 2 ^ k * (q - 1) := by
        obtain ⟨p, rfl⟩ : ∃ p, q = p + 1 := ⟨q - 1, by omega⟩
        rw [Nat.add_sub_cancel, Nat.mul_add, mul_one]
        omega
      rw [hsplit, Nat.add_mul_div_left _ _ htwo, Nat.div_eq_of_lt (by omega), zero_add]
    rw [hpred, Nat.mul_div_cancel_left _ htwo]
    refine iff_of_true ?_ (Nat.dvd_mul_right _ _)
    rcases Nat.mod_two_eq_zero_or_one q with heven | hodd
    · have hmod : (q - 1) % 2 = 1 := by omega
      simp [heven, hmod]
    · have hmod : (q - 1) % 2 = 0 := by omega
      simp [hodd, hmod]
  · have hsame : (m - 1) / 2 ^ k = m / 2 ^ k := by
      have hsplit : m - 1 = (m % 2 ^ k - 1) + 2 ^ k * (m / 2 ^ k) := by
        have hdiv := Nat.mod_add_div m (2 ^ k)
        omega
      rw [hsplit, Nat.add_mul_div_left _ _ htwo, Nat.div_eq_of_lt (by omega), zero_add]
    rw [hsame]
    exact iff_of_false (by simp) hdvd

/-! ## The length of a number -/

theorem size_eq_add {n k : ℕ} (hupper : n / 2 ^ k ≠ 0) : n.size = (n / 2 ^ k).size + k := by
  have htwo : 0 < 2 ^ k := by positivity
  refine le_antisymm ?_ ?_
  · rw [Nat.size_le, pow_add]
    exact (Nat.div_lt_iff_lt_mul htwo).mp (Nat.lt_size_self _)
  · obtain ⟨s, hs⟩ : ∃ s, (n / 2 ^ k).size = s + 1 :=
      ⟨(n / 2 ^ k).size - 1, by
        have hpos := Nat.size_pos.mpr (Nat.pos_of_ne_zero hupper)
        omega⟩
    have hle : 2 ^ s ≤ n / 2 ^ k := Nat.lt_size.mp (by omega)
    have hlt : s + k < n.size := by
      rw [Nat.lt_size, pow_add]
      exact (Nat.le_div_iff_mul_le htwo).mp hle
    omega

theorem size_pred_iff {m : ℕ} (hpos : 0 < m) : m.size = (m - 1).size ↔ ¬ ∃ k, m = 2 ^ k := by
  constructor
  · rintro hsize ⟨k, rfl⟩
    have hpred : (2 ^ k - 1).size ≤ k := Nat.size_le.mpr (by omega)
    rw [Nat.size_pow] at hsize
    omega
  · intro hnot
    refine le_antisymm ?_ (Nat.size_le_size (Nat.sub_le m 1))
    rw [Nat.size_le]
    have hlt := Nat.lt_size_self (m - 1)
    have hne : m ≠ 2 ^ (m - 1).size := fun h => hnot ⟨_, h⟩
    omega

/-! ## Bytes -/

theorem land_add_mul {a b m n : ℕ} (ha : a < 256) (hm : m < 256) :
    (a + 256 * b) &&& (m + 256 * n) = (a &&& m) + 256 * (b &&& n) := by
  have hand : a &&& m < 2 ^ 8 := Nat.and_lt_two_pow a hm
  refine Nat.eq_of_testBit_eq fun i => ?_
  rw [Nat.testBit_and, Nat.add_comm a, Nat.add_comm m, Nat.add_comm (a &&& m),
    show 256 = 2 ^ 8 from rfl, Nat.testBit_two_pow_mul_add b ha, Nat.testBit_two_pow_mul_add n hm,
    Nat.testBit_two_pow_mul_add _ hand, Nat.testBit_and, Nat.testBit_and]
  split
  · rfl
  · rfl

/-- Bytes under a mask, after a shift that lets the low bits `t` of the next byte come in: the result
has the byte `f b` for every byte `b`. -/
theorem ofDigits_shift_land {c k m T : ℕ} (hk : k ≤ 8) (hm : m < 256) (hT : 0 < T) {f : ℕ → ℕ}
    (bytes : List ℕ) (hlow : ∀ b ∈ bytes, b % 2 ^ k < T)
    (hbyte : ∀ b ∈ bytes, ∀ t < T, c * b + b / 2 ^ k + 2 ^ (8 - k) * t < 256 ∧
      (c * b + b / 2 ^ k + 2 ^ (8 - k) * t) &&& m = f b) :
    (c * Nat.ofDigits 256 bytes + Nat.ofDigits 256 bytes / 2 ^ k) &&&
        Nat.ofDigits 256 (bytes.map fun _ => m) = Nat.ofDigits 256 (bytes.map f) := by
  induction bytes with
  | nil => simp
  | cons b bytes ih =>
    have hrest := ih (fun d hd => hlow d (mem_cons_of_mem b hd))
      fun d hd => hbyte d (mem_cons_of_mem b hd)
    have htwo : 0 < 2 ^ k := by positivity
    have hpow : 256 = 2 ^ k * 2 ^ (8 - k) := by
      rw [← pow_add, Nat.add_sub_cancel' hk]
      rfl
    -- what comes in are the low bits of the next byte
    have hnext : Nat.ofDigits 256 bytes % 2 ^ k < T := by
      cases bytes with
      | nil => simpa using hT
      | cons d bytes =>
        have hmod : Nat.ofDigits 256 (d :: bytes) % 2 ^ k = d % 2 ^ k := by
          rw [Nat.ofDigits_cons]
          conv_lhs => rw [hpow, mul_assoc]
          exact Nat.add_mul_mod_self_left _ _ _
        rw [hmod]
        exact hlow d (by simp)
    obtain ⟨hlt, hf⟩ := hbyte b (by simp) _ hnext
    set rest := Nat.ofDigits 256 bytes with hdef
    have hshift : c * (b + 256 * rest) + (b + 256 * rest) / 2 ^ k
        = (c * b + b / 2 ^ k + 2 ^ (8 - k) * (rest % 2 ^ k)) + 256 * (c * rest + rest / 2 ^ k) := by
      have hmul : 256 * rest = 2 ^ k * (2 ^ (8 - k) * rest) := by
        rw [← mul_assoc, ← hpow]
      have hdiv : (b + 256 * rest) / 2 ^ k = b / 2 ^ k + 2 ^ (8 - k) * rest := by
        rw [hmul, Nat.add_mul_div_left _ _ htwo]
      have hsplit : 2 ^ (8 - k) * rest
          = 2 ^ (8 - k) * (rest % 2 ^ k) + 256 * (rest / 2 ^ k) := by
        conv_lhs => rw [← Nat.mod_add_div rest (2 ^ k)]
        conv_rhs => rw [hpow]
        ring
      rw [hdiv, hsplit]
      ring
    rw [map_cons, map_cons, Nat.ofDigits_cons, Nat.ofDigits_cons, Nat.ofDigits_cons,
      ← hdef, hshift, land_add_mul hlt hm, hf, hrest]

theorem ofDigits_map_add (f g : ℕ → ℕ) (bytes : List ℕ) :
    Nat.ofDigits 256 (bytes.map f) + Nat.ofDigits 256 (bytes.map g) =
      Nat.ofDigits 256 (bytes.map fun b => f b + g b) := by
  induction bytes with
  | nil => simp
  | cons b bytes ih =>
    simp only [map_cons, Nat.ofDigits_cons, ← ih]
    ring

theorem ones_ofDigits (bytes : List ℕ) (hbytes : ∀ b ∈ bytes, b < 256) :
    ones (Nat.ofDigits 256 bytes) = (bytes.map ones).sum := by
  induction bytes with
  | nil => simp
  | cons b bytes ih =>
    have hb : b < 2 ^ 8 := hbytes b (by simp)
    have hsplit := ones_add_two_pow_mul hb (Nat.ofDigits 256 bytes)
    rw [Nat.ofDigits_cons, map_cons, sum_cons,
      ← ih fun c hc => hbytes c (mem_cons_of_mem b hc)]
    exact hsplit

theorem exists_bytes {w n : ℕ} (hw : w < 256 ^ n) :
    ∃ bytes : List ℕ, bytes.length = n ∧ (∀ b ∈ bytes, b < 256) ∧ Nat.ofDigits 256 bytes = w := by
  induction n generalizing w with
  | zero =>
    obtain rfl : w = 0 := by simpa using hw
    exact ⟨[], rfl, by simp, rfl⟩
  | succ n ih =>
    obtain ⟨bytes, hlen, hbytes, hvalue⟩ := @ih (w / 256) (by rw [pow_succ] at hw; omega)
    refine ⟨w % 256 :: bytes, by rw [length_cons, hlen], ?_, ?_⟩
    · intro b hb
      rcases mem_cons.mp hb with rfl | hb
      · exact Nat.mod_lt _ (by decide)
      · exact hbytes b hb
    · rw [Nat.ofDigits_cons, hvalue]
      exact Nat.mod_add_div w 256

end Bits
