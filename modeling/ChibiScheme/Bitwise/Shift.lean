import ChibiScheme.Lib.TwosComplement
import ChibiScheme.Numeric.BignumAdd
import Mathlib.Data.Rat.Floor

/-!
# `arithmetic-shift`

Shifts move whole digits and then bits across the digits.  A right shift of a negative bignum adds
one to the magnitude, whether or not something was shifted out; a fixnum that is shifted out
altogether leaves 0.
-/

namespace ChibiScheme

open Limbs List

/-! ## Shifting digits -/

/-- One pass of the loop that shifts to the left, from the lowest digit up. -/
def shiftLeftBody (bitShift : ℕ) (word tmp : UInt64) : UInt64 × UInt64 :=
  ((word <<< UInt64.ofNat bitShift) + tmp,
    if bitShift ≠ 0 then word >>> UInt64.ofNat (64 - bitShift) else tmp)

/-- The loop of a right shift from the top digit down; `tmp` is what the digit above hands on. -/
def shiftRightLoop (bitShift : ℕ) : List UInt64 → UInt64 → List UInt64
  | [], _ => []
  | word :: words, tmp =>
    ((word >>> UInt64.ofNat bitShift) + tmp) ::
      shiftRightLoop bitShift words
        (if bitShift ≠ 0 then word <<< UInt64.ofNat (64 - bitShift) else tmp)

/-- `sexp_arithmetic_shift` of a bignum by `c` to the left. -/
def shiftLeftBignum (i : Bignum) (c : ℕ) : Bignum :=
  let len := sexpBignumHi i
  let offset := c / 64
  let bitShift := c - offset * 64
  let shifted := chain (shiftLeftBody bitShift) (i.digits len) 0
  ⟨i.sign, List.replicate offset 0 ++ shifted.1 ++ [if bitShift ≠ 0 then shifted.2 else 0]⟩

/-- `sexp_arithmetic_shift` of a bignum by `c` to the right. -/
def shiftRightBignum (i : Bignum) (c : ℕ) : ExactInt :=
  let len := sexpBignumHi i
  let offset := c / 64
  let bitShift := c - offset * 64
  if len < offset then .fixnum (sexpMakeFixnum (if i.sign = .pos then 0 else -1))
  else
    let kept := (i.digits len).drop offset
    let res : Bignum := ⟨i.sign, (shiftRightLoop bitShift kept.reverse 0).reverse ++ [0]⟩
    let res := if res.sign = .neg then sexpBignumFxadd res 1 else res
    sexpBignumNormalize res

/-- `sexp_arithmetic_shift` of a bignum. -/
def shiftBignum (i : Bignum) (c : ℤ) : ExactInt :=
  if c < 0 then shiftRightBignum i (-c).toNat
  else sexpBignumNormalize (shiftLeftBignum i c.toNat)

/-! ## The operator -/

/-- The loop of `log2i`. For a word with its top bit set the last comparison shifts 1 by the width
of a word, which the language leaves open; what comes of it, 63 or 64, leads to the same branch. -/
def log2Loop (v : UInt64) : ℕ → ℕ → ℕ
  | 0, i => i
  | fuel + 1, i => if 2 ^ (i + 1) > v.toNat then i else log2Loop v fuel (i + 1)

/-- `log2i` -/
def log2Word (v : UInt64) : ℕ := log2Loop v 64 0

/-- `sexp_arithmetic_shift`, in its branches: fixnum or bignum, left or right. -/
def sexpArithmeticShift (i : ExactInt) (count : Fixnum) : ExactInt :=
  let c := count.val
  if c = 0 then i
  else
    match i with
    | .fixnum i =>
      if c < 0 then
        .fixnum (sexpMakeFixnum (if c > -64 then i.val / 2 ^ (-c).toNat else 0))
      else if (log2Word (UInt64.ofInt i.val) : ℤ) + c + 1 < 63 then
        let tmp := UInt64.ofInt i.val <<< UInt64.ofInt c
        .fixnum (sexpMakeFixnum (tmp.toNat * (sexpFxSign i).toInt))
      else shiftBignum (sexpFixnumToBignum i) c
    | .bignum i => shiftBignum i c

/-! ## Words -/

theorem toNat_shiftLeft_word (word : UInt64) {b : ℕ} (hb : b < 64) :
    (word <<< UInt64.ofNat b).toNat = word.toNat * 2 ^ b % base := by
  have hmod : (UInt64.ofNat b).toNat % 64 = b := by
    rw [UInt64.toNat_ofNat']
    omega
  rw [UInt64.toNat_shiftLeft, hmod, Nat.shiftLeft_eq]
  rfl

theorem toNat_shiftRight_word (word : UInt64) {b : ℕ} (hb : b < 64) :
    (word >>> UInt64.ofNat b).toNat = word.toNat / 2 ^ b := by
  have hmod : (UInt64.ofNat b).toNat % 64 = b := by
    rw [UInt64.toNat_ofNat']
    omega
  rw [UInt64.toNat_shiftRight, hmod, Nat.shiftRight_eq_div_pow]

theorem two_pow_mul_two_pow {b : ℕ} (hb : b < 64) : 2 ^ (64 - b) * 2 ^ b = base := by
  rw [← pow_add, show 64 - b + b = 64 by omega]
  rfl

/-! ## Shifting to the left -/

theorem shiftLeftBody_value {bitShift : ℕ} (hb : bitShift < 64) (word tmp : UInt64)
    (htmp : tmp.toNat < 2 ^ bitShift) :
    (shiftLeftBody bitShift word tmp).2.toNat < 2 ^ bitShift ∧
      ((shiftLeftBody bitShift word tmp).1.toNat : ℤ) +
          base * (shiftLeftBody bitShift word tmp).2.toNat =
        (word.toNat : ℤ) * 2 ^ bitShift + tmp.toNat := by
  have hword := toNat_lt_base word
  have hpow := two_pow_mul_two_pow hb
  -- the digit that is shifted is a multiple of the power, so there is room for what comes in
  have hlow : word.toNat * 2 ^ bitShift % base + tmp.toNat < base := by
    rw [← hpow, Nat.mul_mod_mul_right]
    have hmod : word.toNat % 2 ^ (64 - bitShift) + 1 ≤ 2 ^ (64 - bitShift) :=
      Nat.mod_lt _ (by positivity)
    calc word.toNat % 2 ^ (64 - bitShift) * 2 ^ bitShift + tmp.toNat
        < (word.toNat % 2 ^ (64 - bitShift) + 1) * 2 ^ bitShift := by
          rw [Nat.add_mul, one_mul]
          omega
      _ ≤ 2 ^ (64 - bitShift) * 2 ^ bitShift := Nat.mul_le_mul_right _ hmod
  have hfirst : (shiftLeftBody bitShift word tmp).1.toNat
      = word.toNat * 2 ^ bitShift % base + tmp.toNat := by
    rw [shiftLeftBody, UInt64.toNat_add, toNat_shiftLeft_word word hb]
    exact Nat.mod_eq_of_lt hlow
  have hsecond : (shiftLeftBody bitShift word tmp).2.toNat
      = word.toNat * 2 ^ bitShift / base := by
    unfold shiftLeftBody
    by_cases hzero : bitShift = 0
    · subst hzero
      have hnone : tmp.toNat = 0 := by simpa using htmp
      simp [hnone, Nat.div_eq_of_lt hword]
    · simp only [ne_eq, hzero, not_false_eq_true, if_true]
      rw [toNat_shiftRight_word word (by omega), ← hpow, Nat.mul_div_mul_right _ _ (by positivity)]
  rw [hfirst, hsecond]
  constructor
  · rw [Nat.div_lt_iff_lt_mul base_pos, Nat.mul_comm]
    exact Nat.mul_lt_mul_of_pos_left hword (by positivity)
  · have hsplit := Nat.mod_add_div (word.toNat * 2 ^ bitShift) base
    have hcast : ((word.toNat * 2 ^ bitShift % base + base * (word.toNat * 2 ^ bitShift / base) : ℕ)
        : ℤ) = ((word.toNat * 2 ^ bitShift : ℕ) : ℤ) := by rw [hsplit]
    push_cast at hcast ⊢
    linear_combination hcast

theorem base_pow_mul_two_pow (c : ℕ) : base ^ (c / 64) * 2 ^ (c - c / 64 * 64) = 2 ^ c := by
  rw [base_pow_eq, ← pow_add]
  congr 1
  omega

theorem shiftLeftBignum_toInt (i : Bignum) (c : ℕ) :
    (shiftLeftBignum i c).toInt = i.toInt * 2 ^ c := by
  have hb : c - c / 64 * 64 < 64 := by omega
  obtain ⟨hcarry, hchain⟩ := chain_value (shiftLeftBody (c - c / 64 * 64))
    (fun word => (word.toNat : ℤ) * 2 ^ (c - c / 64 * 64)) (fun tmp => (tmp.toNat : ℤ))
    (fun tmp => tmp.toNat < 2 ^ (c - c / 64 * 64)) (i.digits (sexpBignumHi i)) 0
    (by show 0 < _; positivity)
    (fun word _ tmp htmp => shiftLeftBody_value hb word tmp htmp)
  rw [weigh_mul, weigh_toNat, Bignum.value_digits, value_take_sexpBignumHi] at hchain
  set shifted := chain (shiftLeftBody (c - c / 64 * 64)) (i.digits (sexpBignumHi i)) 0 with hshifted
  have hlast : (if c - c / 64 * 64 ≠ 0 then shifted.2 else 0).toNat = shifted.2.toNat := by
    split
    · rfl
    rename_i hzero
    rw [not_not] at hzero
    rw [hzero, pow_zero] at hcarry
    have hnone : shifted.2.toNat = 0 := by omega
    rw [hnone]
    rfl
  have hlen : shifted.1.length = sexpBignumHi i := by simp [hshifted]
  have hmag : (shiftLeftBignum i c).magnitude = i.magnitude * 2 ^ c := by
    have hvalue : value (shifted.1 ++ [if c - c / 64 * 64 ≠ 0 then shifted.2 else 0])
        = i.magnitude * 2 ^ (c - c / 64 * 64) := by
      rw [value_append, value_cons, value_nil, hlast, hlen, mul_zero, add_zero]
      have hzero : ((0 : UInt64).toNat : ℤ) = 0 := rfl
      rw [hzero, add_zero, Bignum.length_digits] at hchain
      exact_mod_cast hchain
    show value (List.replicate (c / 64) 0 ++ shifted.1 ++ _) = _
    rw [append_assoc, value_append, value_replicate_zero, length_replicate, hvalue,
      zero_add, ← base_pow_mul_two_pow c]
    ring
  have hsign : (shiftLeftBignum i c).sign = i.sign := rfl
  rw [Bignum.toInt, hsign, hmag, Bignum.toInt]
  push_cast
  ring

/-! ## Shifting to the right -/

theorem shiftRightLoop_value {bitShift : ℕ} (hb : bitShift < 64) (words : List UInt64) {r : ℕ}
    (hr : r < 2 ^ bitShift) {tmp : UInt64} (htmp : tmp.toNat = r * 2 ^ (64 - bitShift)) :
    value (shiftRightLoop bitShift words tmp).reverse =
      (r * base ^ words.length + value words.reverse) / 2 ^ bitShift ∧
      (shiftRightLoop bitShift words tmp).length = words.length := by
  induction words generalizing r tmp with
  | nil =>
    simp [shiftRightLoop, Nat.div_eq_of_lt hr]
  | cons word words ih =>
    have hword := toNat_lt_base word
    have hpow := two_pow_mul_two_pow hb
    have htwo : 0 < 2 ^ bitShift := by positivity
    -- the rest of this digit goes to the next one
    have hrest : (if bitShift ≠ 0 then word <<< UInt64.ofNat (64 - bitShift) else tmp).toNat
        = word.toNat % 2 ^ bitShift * 2 ^ (64 - bitShift) := by
      split
      · rw [toNat_shiftLeft_word word (by omega), ← hpow, Nat.mul_comm (2 ^ (64 - bitShift)),
          Nat.mul_mod_mul_right]
      · rename_i hzero
        rw [not_not] at hzero
        subst hzero
        have hnone : r = 0 := by simpa using hr
        rw [htmp, hnone, pow_zero, Nat.mod_one]
    obtain ⟨hvalue, hlength⟩ := ih (Nat.mod_lt word.toNat htwo) hrest
    have hfirst : ((word >>> UInt64.ofNat bitShift) + tmp).toNat
        = (r * base + word.toNat) / 2 ^ bitShift := by
      have hdiv : (r * base + word.toNat) / 2 ^ bitShift
          = r * 2 ^ (64 - bitShift) + word.toNat / 2 ^ bitShift := by
        rw [← hpow, ← Nat.mul_assoc, Nat.add_comm, Nat.add_mul_div_right _ _ htwo, Nat.add_comm]
      have hlt : (r * base + word.toNat) / 2 ^ bitShift < base := by
        rw [Nat.div_lt_iff_lt_mul htwo]
        calc r * base + word.toNat < (r + 1) * base := by
              rw [Nat.add_mul, one_mul]
              omega
          _ ≤ 2 ^ bitShift * base := Nat.mul_le_mul_right _ hr
          _ = base * 2 ^ bitShift := Nat.mul_comm _ _
      rw [UInt64.toNat_add, toNat_shiftRight_word word hb, htmp, hdiv, Nat.add_comm]
      exact Nat.mod_eq_of_lt (hdiv ▸ hlt)
    refine ⟨?_, by rw [shiftRightLoop, length_cons, hlength, length_cons]⟩
    rw [shiftRightLoop, reverse_cons, value_append, hvalue, length_reverse, hlength,
      value_cons, value_nil, mul_zero, add_zero, hfirst, reverse_cons, value_append,
      length_reverse, value_cons, value_nil, mul_zero, add_zero, length_cons]
    have hrem : (r * base + word.toNat) % 2 ^ bitShift = word.toNat % 2 ^ bitShift := by
      rw [← hpow, ← Nat.mul_assoc, Nat.add_comm, Nat.add_mul_mod_self_right]
    have hsplit := Nat.mod_add_div (r * base + word.toNat) (2 ^ bitShift)
    rw [hrem] at hsplit
    calc (word.toNat % 2 ^ bitShift * base ^ words.length + value words.reverse) / 2 ^ bitShift +
          base ^ words.length * ((r * base + word.toNat) / 2 ^ bitShift)
        = (word.toNat % 2 ^ bitShift * base ^ words.length + value words.reverse +
            2 ^ bitShift * (base ^ words.length * ((r * base + word.toNat) / 2 ^ bitShift))) /
              2 ^ bitShift := (Nat.add_mul_div_left _ _ htwo).symm
      _ = ((word.toNat % 2 ^ bitShift + 2 ^ bitShift * ((r * base + word.toNat) / 2 ^ bitShift)) *
            base ^ words.length + value words.reverse) / 2 ^ bitShift := by
          congr 1
          ring
      _ = (r * base ^ (words.length + 1) + (value words.reverse +
            base ^ words.length * word.toNat)) / 2 ^ bitShift := by
          rw [hsplit]
          congr 1
          ring

theorem sign_mul_ediv (sign : Sign) (m c : ℕ) :
    sign.toInt * m / 2 ^ c =
      if sign = .neg ∧ ¬ 2 ^ c ∣ m then -((m / 2 ^ c : ℕ) + 1 : ℤ)
      else sign.toInt * (m / 2 ^ c : ℕ) := by
  have hpow : (0 : ℤ) < 2 ^ c := by positivity
  cases sign with
  | pos => simp
  | neg =>
    by_cases hdvd : 2 ^ c ∣ m
    · obtain ⟨k, rfl⟩ := hdvd
      have htwo : 0 < 2 ^ c := by positivity
      simp only [Sign.toInt_neg, Nat.dvd_mul_right, not_true_eq_false, and_false, if_false,
        Nat.mul_div_cancel_left _ htwo]
      push_cast
      rw [show (-1 : ℤ) * (2 ^ c * k) = 2 ^ c * (-1 * k) by ring,
        Int.mul_ediv_cancel_left _ hpow.ne']
    · simp only [Sign.toInt_neg, hdvd, not_false_eq_true, and_self, if_true, neg_one_mul]
      have hcast : ¬ (2 ^ c : ℤ) ∣ m := fun h => hdvd (by exact_mod_cast h)
      have hsplit := Int.emod_add_mul_ediv (m : ℤ) (2 ^ c)
      have hpos : 0 < (m : ℤ) % 2 ^ c :=
        lt_of_le_of_ne (Int.emod_nonneg _ hpow.ne') fun hzero =>
          hcast (Int.dvd_of_emod_eq_zero hzero.symm)
      have hneg : -(m : ℤ) = 2 ^ c * (-((m : ℤ) / 2 ^ c + 1)) + (2 ^ c - (m : ℤ) % 2 ^ c) := by
        linear_combination hsplit
      rw [hneg, Int.add_comm, Int.add_mul_ediv_left _ _ hpow.ne',
        Int.ediv_eq_zero_of_lt (by omega) (by omega), zero_add]
      push_cast
      ring

theorem shiftRight_magnitude (i : Bignum) (c : ℕ) :
    value ((shiftRightLoop (c - c / 64 * 64)
      ((i.digits (sexpBignumHi i)).drop (c / 64)).reverse 0).reverse ++ [0]) =
        i.magnitude / 2 ^ c := by
  have hb : c - c / 64 * 64 < 64 := by omega
  have hzero : (0 : UInt64).toNat = 0 * 2 ^ (64 - (c - c / 64 * 64)) := by simp
  obtain ⟨hvalue, _⟩ := shiftRightLoop_value hb
    ((i.digits (sexpBignumHi i)).drop (c / 64)).reverse (by positivity) hzero
  rw [value_append, hvalue, reverse_reverse, zero_mul, zero_add, ← value_div_base_pow,
    Bignum.value_digits, value_take_sexpBignumHi, Nat.div_div_eq_div_mul, base_pow_mul_two_pow]
  simp

theorem shiftRightBignum_toInt_iff {i : Bignum} (hnonzero : i.magnitude ≠ 0) (c : ℕ) :
    (shiftRightBignum i c).toInt = i.toInt / 2 ^ c ↔ ¬ (i.toInt < 0 ∧ 2 ^ c ∣ i.toInt) := by
  have hneg : i.sign = .neg ↔ i.toInt < 0 := by
    unfold Bignum.toInt
    cases i.sign with
    | pos => simp
    | neg => simpa using Nat.pos_of_ne_zero hnonzero
  have hdvd : (2 ^ c : ℤ) ∣ i.toInt ↔ 2 ^ c ∣ i.magnitude := by
    rw [← i.natAbs_toInt, ← Int.natAbs_dvd_natAbs, Int.natAbs_pow]
    rfl
  have hfloor := sign_mul_ediv i.sign i.magnitude c
  rw [← Bignum.toInt] at hfloor
  rw [hfloor, ← hneg, hdvd]
  by_cases hlen : sexpBignumHi i < c / 64
  · have hcode : shiftRightBignum i c
        = .fixnum (sexpMakeFixnum (if i.sign = .pos then 0 else -1)) := by
      unfold shiftRightBignum
      rw [if_pos hlen]
    have hsmall : i.magnitude < 2 ^ c := by
      calc i.magnitude < base ^ sexpBignumHi i := magnitude_lt_base_pow_hi i
        _ = 2 ^ (64 * sexpBignumHi i) := base_pow_eq _
        _ ≤ 2 ^ c := Nat.pow_le_pow_right (by decide) (by omega)
    have hnot : ¬ 2 ^ c ∣ i.magnitude := fun h =>
      absurd (Nat.le_of_dvd (Nat.pos_of_ne_zero hnonzero) h) (by omega)
    rw [hcode, Nat.div_eq_of_lt hsmall]
    cases i.sign with
    | pos =>
      have hzero : (sexpMakeFixnum 0).val = 0 := by decide
      simp [hzero]
    | neg =>
      have hone : (sexpMakeFixnum (-1)).val = -1 := by decide
      simp [hone, hnot]
  · have hmag := shiftRight_magnitude i c
    set kept := (shiftRightLoop (c - c / 64 * 64)
      ((i.digits (sexpBignumHi i)).drop (c / 64)).reverse 0).reverse ++ [0] with hkept
    have hcode : (shiftRightBignum i c).toInt
        = (if i.sign = .neg then sexpBignumFxadd ⟨i.sign, kept⟩ 1 else ⟨i.sign, kept⟩).toInt := by
      unfold shiftRightBignum
      rw [if_neg hlen]
      simp only [← hkept, sexpBignumNormalize_toInt]
    rw [hcode]
    cases hsign : i.sign with
    | pos => simp [Bignum.toInt, Bignum.magnitude, hmag]
    | neg =>
      have hadd := sexpBignumFxadd_magnitude ⟨.neg, kept⟩ 1
      have hone : (1 : UInt64).toNat = 1 := rfl
      rw [Bignum.magnitude.eq_1 ⟨.neg, kept⟩, hmag, hone] at hadd
      simp only [if_true, true_and]
      rw [Bignum.toInt, sexpBignumFxadd_sign, hadd]
      by_cases h : 2 ^ c ∣ i.magnitude
      · simp only [h, not_true_eq_false, if_false, iff_false, Sign.toInt_neg]
        push_cast
        omega
      · simp only [h, not_false_eq_true, if_true, iff_true, Sign.toInt_neg]
        push_cast
        ring

/-! ## `log2i` -/

theorem lt_two_pow_log2WordLoop (v : UInt64) {fuel i : ℕ} (hfuel : i + fuel = 64) :
    v.toNat < 2 ^ (log2Loop v fuel i + 1) := by
  induction fuel generalizing i with
  | zero =>
    obtain rfl : i = 64 := by omega
    have hlt := toNat_lt_base v
    have hbase : base = 2 ^ 64 := rfl
    simp only [log2Loop]
    omega
  | succ fuel ih =>
    rw [log2Loop]
    split
    · assumption
    · exact ih (by omega)

theorem lt_two_pow_log2Word (v : UInt64) : v.toNat < 2 ^ (log2Word v + 1) :=
  lt_two_pow_log2WordLoop v rfl

/-! ## All arguments -/

/-- A negative number is not shifted out of a word altogether, and a negative bignum not to the
right without a remainder. -/
def ShiftSafe : ExactInt → Fixnum → Prop
  | .fixnum i, count => ¬ (i.val < 0 ∧ count.val ≤ -64)
  | .bignum i, count =>
    ¬ (i.toInt < 0 ∧ count.val < 0 ∧ 2 ^ (-count.val).toNat ∣ i.toInt)

/-- `arithmetic-shift` gives the canonical integer that is the floor of the shifted number. -/
def ShiftsFloor (i : ExactInt) (count : Fixnum) : Prop :=
  (sexpArithmeticShift i count).Canonical ∧
    (sexpArithmeticShift i count).toInt = ⌊(i.toInt : ℚ) * 2 ^ count.val⌋

theorem floor_shift (n c : ℤ) :
    ⌊(n : ℚ) * 2 ^ c⌋ = if 0 ≤ c then n * 2 ^ c.toNat else n / 2 ^ (-c).toNat := by
  split
  · rename_i hc
    obtain ⟨k, rfl⟩ := Int.eq_ofNat_of_zero_le hc
    have hcast : (n : ℚ) * 2 ^ (k : ℤ) = ((n * 2 ^ k : ℤ) : ℚ) := by
      rw [zpow_natCast]
      push_cast
      rfl
    rw [hcast, Int.floor_intCast]
    rfl
  · rename_i hc
    obtain ⟨k, hk⟩ := Int.eq_ofNat_of_zero_le (show 0 ≤ -c by omega)
    have hcast : (n : ℚ) * 2 ^ c = (n : ℚ) / ((2 ^ k : ℕ) : ℚ) := by
      rw [show c = -(k : ℤ) by omega, zpow_neg, zpow_natCast, ← div_eq_mul_inv]
      push_cast
      rfl
    rw [hcast, Rat.floor_intCast_div_natCast, hk]
    push_cast
    rfl

theorem shiftBignum_toInt_iff {i : Bignum} {c : ℤ} (h : 0 ≤ c ∨ i.magnitude ≠ 0) :
    (shiftBignum i c).toInt = (if 0 ≤ c then i.toInt * 2 ^ c.toNat else i.toInt / 2 ^ (-c).toNat) ↔
      ¬ (i.toInt < 0 ∧ c < 0 ∧ 2 ^ (-c).toNat ∣ i.toInt) := by
  by_cases hneg : c < 0
  · have hiff := shiftRightBignum_toInt_iff (h.resolve_left (not_le.mpr hneg)) (-c).toNat
    simpa [shiftBignum, hneg, not_le.mpr hneg] using hiff
  · have hleft := shiftLeftBignum_toInt i c.toNat
    simp [shiftBignum, hneg, not_lt.mp hneg, hleft]

theorem shiftBignum_canonical (i : Bignum) (c : ℤ) : (shiftBignum i c).Canonical := by
  unfold shiftBignum
  split
  · unfold shiftRightBignum
    simp only
    split
    · trivial
    · exact sexpBignumNormalize_canonical _
  · exact sexpBignumNormalize_canonical _

theorem sexpArithmeticShift_canonical {i : ExactInt} (hi : i.Canonical) (count : Fixnum) :
    (sexpArithmeticShift i count).Canonical := by
  unfold sexpArithmeticShift
  simp only
  split
  · exact hi
  cases i with
  | bignum i => exact shiftBignum_canonical i count.val
  | fixnum i =>
    simp only
    split
    · trivial
    · split
      · trivial
      · exact shiftBignum_canonical _ _

theorem toNat_ofInt_fixnum (i : Fixnum) :
    ((UInt64.ofInt i.val).toNat : ℤ) = if i.val < 0 then i.val + 2 ^ 64 else i.val := by
  have hbounds := i.bounds
  have hnonneg : 0 ≤ i.val % 2 ^ 64 := Int.emod_nonneg _ (by positivity)
  have hword : ((UInt64.ofInt i.val).toNat : ℤ) = i.val % 2 ^ 64 := by
    rw [UInt64.ofInt, UInt64.toNat_ofNat', Nat.mod_eq_of_lt (by omega), Int.toNat_of_nonneg hnonneg]
  rw [hword]
  split
  · omega
  · omega

theorem shift_small {i : Fixnum} {c : ℤ} (hc : 0 < c)
    (hsmall : (log2Word (UInt64.ofInt i.val) : ℤ) + c + 1 < 63) :
    (sexpMakeFixnum (((UInt64.ofInt i.val <<< UInt64.ofInt c).toNat : ℤ) *
      (sexpFxSign i).toInt)).val = i.val * 2 ^ c.toNat := by
  obtain ⟨k, rfl⟩ := Int.eq_ofNat_of_zero_le hc.le
  have hbounds := i.bounds
  have hword := toNat_ofInt_fixnum i
  have hlog := lt_two_pow_log2Word (UInt64.ofInt i.val)
  have hlt : (UInt64.ofInt i.val).toNat * 2 ^ k < 2 ^ 62 := by
    calc (UInt64.ofInt i.val).toNat * 2 ^ k
        < 2 ^ (log2Word (UInt64.ofInt i.val) + 1) * 2 ^ k :=
          Nat.mul_lt_mul_of_pos_right hlog (by positivity)
      _ = 2 ^ (log2Word (UInt64.ofInt i.val) + 1 + k) := (pow_add _ _ _).symm
      _ ≤ 2 ^ 62 := Nat.pow_le_pow_right (by decide) (by omega)
  -- the word of a negative fixnum is too large
  have hnonneg : ¬ i.val < 0 := by
    intro hneg
    rw [if_pos hneg] at hword
    have hone : 1 ≤ 2 ^ k := Nat.one_le_two_pow
    have hle := Nat.le_mul_of_pos_right (UInt64.ofInt i.val).toNat (show 0 < 2 ^ k by omega)
    omega
  rw [if_neg hnonneg] at hword
  have hsign : sexpFxSign i = .pos := by
    rw [sexpFxSign, if_neg hnonneg]
  have hshift : (UInt64.ofInt i.val <<< UInt64.ofInt (k : ℤ)).toNat
      = (UInt64.ofInt i.val).toNat * 2 ^ k := by
    have hcount : UInt64.ofInt (k : ℤ) = UInt64.ofNat k := by
      have hmod : ((k : ℤ) % 2 ^ 64).toNat = k := by omega
      rw [UInt64.ofInt, hmod]
    have hbase : base = 2 ^ 64 := rfl
    rw [hcount, toNat_shiftLeft_word _ (by omega)]
    exact Nat.mod_eq_of_lt (by omega)
  rw [hshift, hsign, Sign.toInt_pos, mul_one]
  have hvalue : (((UInt64.ofInt i.val).toNat * 2 ^ k : ℕ) : ℤ) = i.val * 2 ^ k := by
    push_cast
    rw [hword]
  rw [hvalue]
  have hrange : i.val * 2 ^ k < 2 ^ 62 := by
    rw [← hvalue]
    exact_mod_cast hlt
  exact sexpMakeFixnum_val ((inFixnumRange_iff _).mpr ⟨by omega, hrange⟩)

theorem shift_right_fixnum {i : Fixnum} {c : ℤ} (hc : c < 0) :
    (sexpMakeFixnum (if c > -64 then i.val / 2 ^ (-c).toNat else 0)).val
        = i.val / 2 ^ (-c).toNat ↔ ¬ (i.val < 0 ∧ c ≤ -64) := by
  have hbounds := i.bounds
  have hpow : (0 : ℤ) < 2 ^ (-c).toNat := by positivity
  split
  · rename_i hgt
    have hfits : InFixnumRange (i.val / 2 ^ (-c).toNat) := by
      rw [inFixnumRange_iff]
      constructor
      · rw [Int.le_ediv_iff_mul_le hpow]
        nlinarith
      · exact Int.ediv_lt_of_lt_mul hpow (by nlinarith)
    have hnot : ¬ (i.val < 0 ∧ c ≤ -64) := fun h => by omega
    exact ⟨fun _ => hnot, fun _ => sexpMakeFixnum_val hfits⟩
  · rename_i hle
    have hmono : (2 : ℤ) ^ 64 ≤ 2 ^ (-c).toNat := by
      exact_mod_cast Nat.pow_le_pow_right (by decide) (by omega)
    have hzero : (sexpMakeFixnum 0).val = 0 := by decide
    rw [hzero]
    by_cases hneg : i.val < 0
    · have hminus : i.val / 2 ^ (-c).toNat < 0 := Int.ediv_neg_of_neg_of_pos hneg hpow
      constructor
      · intro heq
        omega
      · intro hnot
        exact absurd ⟨hneg, not_lt.mp hle⟩ hnot
    · have hnone : i.val / 2 ^ (-c).toNat = 0 :=
        Int.ediv_eq_zero_of_lt (not_lt.mp hneg) (by omega)
      exact ⟨fun _ h => hneg h.1, fun _ => hnone.symm⟩

/-- `arithmetic-shift` is the floor exactly on safe arguments. -/
theorem arithmeticShift_iff (i : ExactInt) (count : Fixnum) (hi : i.Canonical) :
    ShiftsFloor i count ↔ ShiftSafe i count := by
  have hcanonical := sexpArithmeticShift_canonical hi count
  unfold ShiftsFloor
  rw [floor_shift]
  simp only [hcanonical, true_and]
  unfold sexpArithmeticShift
  simp only
  -- a count of zero returns the operand
  by_cases hzero : count.val = 0
  · simp only [hzero, if_true, le_refl, Int.toNat_zero, pow_zero, mul_one, true_iff]
    cases i with
    | fixnum i => exact fun h => by omega
    | bignum i => exact fun h => by omega
  · rw [if_neg hzero]
    cases i with
    | bignum i =>
      have hnonzero : i.magnitude ≠ 0 := by
        have hwide : 2 ^ 62 ≤ i.magnitude := hi.wide
        omega
      exact shiftBignum_toInt_iff (.inr hnonzero)
    | fixnum i =>
      simp only [ExactInt.toInt_fixnum]
      by_cases hneg : count.val < 0
      · rw [if_pos hneg, if_neg (not_le.mpr hneg)]
        exact shift_right_fixnum hneg
      · have hsafe : ShiftSafe (.fixnum i) count := fun h => by omega
        have hpos : 0 < count.val := by omega
        rw [if_neg hneg]
        refine ⟨fun _ => hsafe, fun _ => ?_⟩
        rw [if_pos hpos.le]
        split
        · rename_i hsmall
          exact shift_small hpos hsmall
        · have hiff := shiftBignum_toInt_iff (i := sexpFixnumToBignum i) (.inl hpos.le)
          rw [if_pos hpos.le, sexpFixnumToBignum_toInt] at hiff
          exact hiff.mpr fun h => hneg h.2.1

/-- `-(2 ^ 64 + 1)` shifted by a digit to the right. -/
theorem arithmeticShift_large :
    ShiftsFloor (.bignum ⟨.neg, [1, 1]⟩) (sexpMakeFixnum (-64)) := by
  refine (arithmeticShift_iff _ _ (by decide)).mpr ?_
  show ¬ (_ ∧ _ ∧ _)
  decide

/-- `(arithmetic-shift (- (expt 2 64)) -1)` is one too small. -/
theorem arithmeticShift_power :
    ¬ ShiftsFloor (.bignum ⟨.neg, [0, 1]⟩) (sexpMakeFixnum (-1)) := by
  rintro ⟨_, hfloor⟩
  rw [floor_shift] at hfloor
  exact absurd hfloor (by decide)

end ChibiScheme
