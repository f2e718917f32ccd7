import Mathlib.Data.Nat.Digits.Lemmas
import Mathlib.Tactic.LinearCombination
import Mathlib.Tactic.Positivity

/-!
# Little-endian lists of machine words

A multi-word natural number is a list of 64-bit words, least significant word
first.  Its value is Mathlib's `Nat.ofDigits` at base `2 ^ 64`; words above the
most significant nonzero one are allowed, so the same number has many lists.

Word loops that walk such a list from the low end and thread a carry, a borrow
or a partial product are all instances of `chain`.  `chain_value` turns the
one-word equation of the loop body into the equation of the whole loop: the
words written, plus what is still carried at the weight of the next word, are
what went in.  Carries are valued in `ℤ`, so a borrow is a negative carry.
-/

namespace Limbs

open List

/-- The number of values of one word. -/
def base : ℕ := 2 ^ 64

theorem base_pos : 0 < base := by decide

theorem one_lt_base : 1 < base := by decide

theorem toNat_lt_base (word : UInt64) : word.toNat < base := word.toNat_lt

/-- The number of some words, the lowest first. -/
def value (words : List UInt64) : ℕ :=
  Nat.ofDigits base (words.map UInt64.toNat)

@[simp] theorem value_nil : value [] = 0 := rfl

@[simp] theorem value_cons (word : UInt64) (words : List UInt64) :
    value (word :: words) = word.toNat + base * value words := by
  simp [value, Nat.ofDigits_cons]

theorem value_append (low high : List UInt64) :
    value (low ++ high) = value low + base ^ low.length * value high := by
  simp [value, Nat.ofDigits_append]

variable (words : List UInt64)

theorem value_take_add_drop {count : ℕ} (hcount : count ≤ words.length) :
    value words = value (words.take count) + base ^ count * value (words.drop count) := by
  conv_lhs => rw [← take_append_drop count words]
  rw [value_append, length_take, Nat.min_eq_left hcount]

@[simp] theorem value_replicate_zero (count : ℕ) : value (List.replicate count 0) = 0 := by
  induction count with
  | zero => rfl
  | succ count ih => simp [replicate_succ, ih]

theorem value_lt : value words < base ^ words.length := by
  have hlt := Nat.ofDigits_lt_base_pow_length one_lt_base
    (l := words.map UInt64.toNat) (by
      intro digit hdigit
      obtain ⟨word, -, rfl⟩ := mem_map.mp hdigit
      exact toNat_lt_base word)
  simpa [value] using hlt

theorem value_inj {left right : List UInt64} (hlength : left.length = right.length)
    (hvalue : value left = value right) : left = right := by
  have hdigits : ∀ words : List UInt64, ∀ digit ∈ words.map UInt64.toNat, digit < base := by
    intro words digit hdigit
    obtain ⟨word, -, rfl⟩ := mem_map.mp hdigit
    exact toNat_lt_base word
  have hmap := Nat.ofDigits_inj_of_len_eq one_lt_base (by simpa using hlength)
    (hdigits left) (hdigits right) hvalue
  exact map_injective_iff.mpr (fun _ _ => UInt64.toNat_inj.mp) hmap

theorem value_eq_zero_iff : value words = 0 ↔ ∀ word ∈ words, word = 0 := by
  induction words with
  | nil => simp
  | cons word words ih =>
    have hbase := base_pos
    have hword : word.toNat = 0 ↔ word = 0 := by
      rw [← UInt64.toNat_inj]
      rfl
    simp only [value_cons, Nat.add_eq_zero_iff, Nat.mul_eq_zero, mem_cons, forall_eq_or_imp,
      hword, ih, hbase.ne', false_or]

theorem le_value_of_getLast_ne_zero {words : List UInt64} (hne : words ≠ [])
    (hlast : words.getLast hne ≠ 0) : base ^ (words.length - 1) ≤ value words := by
  have hsplit : value words =
      value words.dropLast + base ^ (words.length - 1) * (words.getLast hne).toNat := by
    conv_lhs => rw [← dropLast_append_getLast hne]
    rw [value_append]
    simp
  have hpos : 0 < (words.getLast hne).toNat := by
    rcases Nat.eq_zero_or_pos (words.getLast hne).toNat with hzero | hpos
    · exact absurd (UInt64.toNat_inj.mp hzero) hlast
    · exact hpos
  calc base ^ (words.length - 1)
      ≤ base ^ (words.length - 1) * (words.getLast hne).toNat := Nat.le_mul_of_pos_right _ hpos
    _ ≤ value words := by omega

theorem value_set {i : ℕ} (hi : i < words.length) (word : UInt64) :
    value (words.set i word) + base ^ i * (words[i]).toNat =
      value words + base ^ i * word.toNat := by
  induction words generalizing i with
  | nil => simp at hi
  | cons head words ih =>
    cases i with
    | zero =>
      simp only [set_cons_zero, value_cons, getElem_cons_zero, pow_zero, one_mul]
      ring
    | succ i =>
      have hrest := ih (by simpa using hi)
      simp only [set_cons_succ, value_cons, getElem_cons_succ, pow_succ]
      linear_combination base * hrest

theorem value_div_base_pow (i : ℕ) : value words / base ^ i = value (words.drop i) := by
  induction words generalizing i with
  | nil => simp
  | cons word words ih =>
    cases i with
    | zero => simp
    | succ i =>
      rw [drop_succ_cons, ← ih i, value_cons, pow_succ', ← Nat.div_div_eq_div_mul,
        Nat.add_mul_div_left _ _ base_pos, Nat.div_eq_of_lt (toNat_lt_base word), zero_add]

/-! ## Word loops with a carry -/

section Chain

variable {α σ : Type*}

/-- Walk `items` from the low end, writing one word for each and threading the
carry state. -/
def chain (body : α → σ → UInt64 × σ) : List α → σ → List UInt64 × σ
  | [], carry => ([], carry)
  | item :: items, carry =>
    let written := body item carry
    let rest := chain body items written.2
    (written.1 :: rest.1, rest.2)

/-- What the items contribute, each at the weight of its position. -/
def weigh (weight : α → ℤ) : List α → ℤ
  | [] => 0
  | item :: items => weight item + base * weigh weight items

@[simp] theorem chain_nil (body : α → σ → UInt64 × σ) (carry : σ) :
    chain body [] carry = ([], carry) := rfl

@[simp] theorem chain_cons (body : α → σ → UInt64 × σ) (item : α) (items : List α) (carry : σ) :
    chain body (item :: items) carry =
      ((body item carry).1 :: (chain body items (body item carry).2).1,
        (chain body items (body item carry).2).2) := rfl

@[simp] theorem weigh_nil (weight : α → ℤ) : weigh weight [] = 0 := rfl

@[simp] theorem weigh_cons (weight : α → ℤ) (item : α) (items : List α) :
    weigh weight (item :: items) = weight item + base * weigh weight items := rfl

@[simp] theorem length_chain (body : α → σ → UInt64 × σ) (items : List α) (carry : σ) :
    (chain body items carry).1.length = items.length := by
  induction items generalizing carry with
  | nil => rfl
  | cons item items ih => simp [ih]

theorem chain_value (body : α → σ → UInt64 × σ) (weight : α → ℤ) (carried : σ → ℤ)
    (Ok : σ → Prop) (items : List α) (carry : σ) (hcarry : Ok carry)
    (hbody : ∀ item ∈ items, ∀ carry, Ok carry →
      Ok (body item carry).2 ∧
        ((body item carry).1.toNat : ℤ) + base * carried (body item carry).2 =
          weight item + carried carry) :
    Ok (chain body items carry).2 ∧
      (value (chain body items carry).1 : ℤ) +
          (base : ℤ) ^ items.length * carried (chain body items carry).2 =
        weigh weight items + carried carry := by
  induction items generalizing carry with
  | nil => simpa using hcarry
  | cons item items ih =>
    obtain ⟨hok, hword⟩ := hbody item (by simp) carry hcarry
    obtain ⟨hrestOk, hrest⟩ := ih _ hok fun other hother => hbody other (by simp [hother])
    refine ⟨hrestOk, ?_⟩
    simp only [chain_cons, weigh_cons, value_cons, length_cons, pow_succ, Nat.cast_add,
      Nat.cast_mul]
    linear_combination hword + (base : ℤ) * hrest

theorem weigh_toNat (words : List UInt64) :
    weigh (fun word => (word.toNat : ℤ)) words = value words := by
  induction words with
  | nil => rfl
  | cons word words ih => simp [ih]

theorem weigh_mul (weight : α → ℤ) (factor : ℤ) (items : List α) :
    weigh (fun item => weight item * factor) items = weigh weight items * factor := by
  induction items with
  | nil => simp
  | cons item items ih =>
    simp only [weigh_cons, ih]
    ring

theorem weigh_zip (left right : List UInt64) (hlength : left.length = right.length)
    (sign : ℤ) :
    weigh (fun pair : UInt64 × UInt64 => (pair.1.toNat : ℤ) + sign * pair.2.toNat)
        (left.zip right) = value left + sign * value right := by
  induction left generalizing right with
  | nil =>
    have hright : right = [] := eq_nil_of_length_eq_zero hlength.symm
    simp [hright]
  | cons word left ih =>
    cases right with
    | nil => simp at hlength
    | cons other right =>
      have htail : left.length = right.length := by simpa using hlength
      simp only [zip_cons_cons, weigh_cons, ih right htail, value_cons, Nat.cast_add,
        Nat.cast_mul]
      ring

end Chain

end Limbs
