import ChibiScheme.Numeric.Normalize

/-!
# What `sexp_ratio_normalize` returns

The two sign adjustments and the reduction between them, first on the contents
(`Lowest`), then in the heap.

The least fixnum is the only value that negation leaves negative.  A numerator is
promoted before it is negated, a denominator is not, so the result is right
unless a denominator is the least fixnum when its sign is to be changed
(`NormalizeSafe`).
-/

namespace ChibiScheme

open Stateful ExactInt Euclid List

variable {F : Type} {h h' : Heap F} {v a b num den : Val} {x y z xq yq : ExactInt} {p : ℕ}

/-! ## Contents -/

/-- The fixnum whose negation is none. -/
def leastFixnum : ExactInt := fixnum (sexpMakeFixnum sexpMinFixnum)

theorem leastFixnum_toInt : leastFixnum.toInt = -2 ^ 62 := by decide

theorem negateExact_leastFixnum : negateExact leastFixnum = leastFixnum := by decide

theorem negateExact_toInt_of_ne (hne : x ≠ leastFixnum) : (negateExact x).toInt = -x.toInt :=
  negateExact_toInt fun hx => hne (hx.trans (by decide))

theorem ExactInt.Wide.negateExact (hx : x.Wide) : (negateExact x).Wide := by
  cases x with
  | fixnum n => trivial
  | bignum bn => exact hx

theorem negateExact_promote_toInt (x : ExactInt) : (negateExact x.promote).toInt = -x.toInt := by
  cases x with
  | fixnum n =>
    unfold ExactInt.promote
    simp only
    split
    · simp [ChibiScheme.negateExact]
    · rename_i hne
      exact negateExact_toInt_of_ne fun hx => hne (ExactInt.fixnum.inj hx)
  | bignum bn => simp [ExactInt.promote, ChibiScheme.negateExact]

theorem ExactInt.Wide.promote (hx : x.Wide) : x.promote.Wide := by
  cases x with
  | fixnum n =>
    unfold ExactInt.promote
    simp only
    split
    · rename_i hmin
      rw [hmin]
      show 2 ^ 62 ≤ (sexpFixnumToBignum _).magnitude
      rw [sexpFixnumToBignum_magnitude]
      decide
    · trivial
  | bignum bn => exact hx

/-- Both signs are changed, or none. -/
theorem adjust_spec (shared : Prop) [Decidable shared] (hx : x.Wide) (hy : y.Wide) :
    (adjust shared x y).1.Wide ∧ (adjust shared x y).2.Wide ∧
      ((¬ y.toInt < 0 ∨ shared) ∧ adjust shared x y = (x, y) ∨
        y.toInt < 0 ∧ (adjust shared x y).1.toInt = -x.toInt ∧
          (y ≠ leastFixnum ∧ (adjust shared x y).2.toInt = -y.toInt ∨
            y = leastFixnum ∧ (adjust shared x y).2 = leastFixnum)) := by
  unfold adjust
  by_cases hneg : y.negative = true
  · have hlt := hy.negative_iff.mp hneg
    rw [if_pos hneg]
    split
    · rename_i hshared
      exact ⟨hx, hy, .inl ⟨.inr hshared, rfl⟩⟩
    · refine ⟨hx.promote.negateExact, hy.negateExact, .inr ⟨hlt, negateExact_promote_toInt x, ?_⟩⟩
      by_cases hmin : y = leastFixnum
      · exact .inr ⟨hmin, by rw [hmin, negateExact_leastFixnum]⟩
      · exact .inl ⟨hmin, negateExact_toInt_of_ne hmin⟩
  · have hnot : ¬ y.toInt < 0 := fun hlt => hneg (hy.negative_iff.mpr hlt)
    rw [if_neg hneg]
    exact ⟨hx, hy, .inl ⟨.inl hnot, rfl⟩⟩

/-- The fraction `m / d` is one whose sign adjustments never negate a denominator
that is the least fixnum. -/
def NormalizeSafe (m d : ℤ) : Prop :=
  m = 0 ∨ d ≠ -2 ^ 62 ∧ d.tdiv (euclid m d) ≠ -2 ^ 62

/-- `xc / yc` is what normalization makes of `x / y`: canonical parts, and for a
safe fraction its lowest terms. -/
structure Lowest (x y xc yc : ExactInt) : Prop where
  canonicalNum : xc.Canonical
  canonicalDen : yc.Canonical
  den_ne : yc.toInt ≠ 0
  value : NormalizeSafe x.toInt y.toInt →
    xc.toInt * y.toInt = x.toInt * yc.toInt ∧ 0 < yc.toInt ∧ Int.gcd xc.toInt yc.toInt = 1

private theorem tdiv_eq_of_mul {m d q : ℤ} (hd : d ≠ 0) (hmul : q * d = m) : m.tdiv d = q := by
  rw [← hmul, Int.mul_tdiv_cancel q hd]

theorem normalizeSafe_neg {m d : ℤ} (hsafe : NormalizeSafe m d) (hzero : m ≠ 0) :
    d.tdiv (euclid m d) ≠ -2 ^ 62 ∧ (-d).tdiv (euclid (-m) (-d)) ≠ -2 ^ 62 := by
  obtain ⟨-, hden⟩ := hsafe.resolve_left hzero
  refine ⟨hden, ?_⟩
  rwa [euclid_neg_neg, Int.neg_tdiv, Int.tdiv_neg, neg_neg]

private theorem lowest_of_reduced {x₁ y₁ : ExactInt} (hreduced : Reduced x₁ y₁ z xq yq)
    (hone : y₁.toInt ≠ 0)
    (hsafe : NormalizeSafe x.toInt y.toInt →
      x₁.toInt * y.toInt = x.toInt * y₁.toInt ∧
        (z.toInt = euclid x₁.toInt y₁.toInt → yq.toInt ≠ -2 ^ 62)) :
    Lowest x y (normalizeInteger (adjust False xq yq).1)
      (normalizeInteger (adjust False xq yq).2) := by
  obtain ⟨-, -, hcases⟩ := adjust_spec False hreduced.wideNum hreduced.wideDen
  have hnum := normalizeInteger_spec (adjust False xq yq).1
  have hden := normalizeInteger_spec (adjust False xq yq).2
  have hyq : yq.toInt ≠ 0 := by
    intro hzero
    apply hone
    rw [← hreduced.den, hzero, zero_mul]
  have hleast := leastFixnum_toInt
  refine ⟨hnum.2, hden.2, ?_, ?_⟩
  · rw [hden.1]
    rcases hcases with ⟨-, heq⟩ | ⟨hlt, -, ⟨-, hvalue⟩ | ⟨-, hvalue⟩⟩
    · rwa [heq]
    · rw [hvalue]
      omega
    · rw [hvalue, hleast]
      decide
  · intro hnormal
    obtain ⟨hcross, hsafeDen⟩ := hsafe hnormal
    -- the denominator is a unit where the divisor is not Euclid's
    have hmin : yq ≠ leastFixnum := by
      rintro rfl
      rcases hreduced.divisor with hdivisor | hunit
      · exact hsafeDen hdivisor hleast
      · rw [hleast] at hunit
        exact absurd hunit (by decide)
    have hfraction : xq.toInt * y.toInt = x.toInt * yq.toInt := by
      apply mul_right_cancel₀ hreduced.divisor_ne
      calc xq.toInt * y.toInt * z.toInt = xq.toInt * z.toInt * y.toInt := by ring
        _ = x.toInt * (yq.toInt * z.toInt) := by rw [hreduced.num, hcross, hreduced.den]
        _ = x.toInt * yq.toInt * z.toInt := by ring
    rw [hnum.1, hden.1]
    rcases hcases with ⟨hsign, heq⟩ | ⟨hlt, hnumValue, ⟨-, hvalue⟩ | ⟨hmin', -⟩⟩
    · rw [heq]
      have hnonneg : ¬ yq.toInt < 0 := hsign.resolve_right id
      exact ⟨hfraction, show 0 < yq.toInt by omega, hreduced.coprime⟩
    · rw [hnumValue, hvalue]
      refine ⟨by rw [neg_mul, mul_neg, hfraction], by omega, ?_⟩
      rw [Int.gcd_neg, Int.neg_gcd]
      exact hreduced.coprime
    · exact absurd hmin' hmin

theorem lowest_of_adjusted {shared : Prop} [Decidable shared] (hx : x.Wide) (hy : y.Wide)
    (hne : y.toInt ≠ 0) (hzero : (adjust shared x y).1.toInt ≠ 0)
    (hreduced : Reduced (adjust shared x y).1 (adjust shared x y).2 z xq yq) :
    Lowest x y (normalizeInteger (adjust False xq yq).1)
      (normalizeInteger (adjust False xq yq).2) := by
  obtain ⟨-, -, hcases⟩ := adjust_spec shared hx hy
  have hquotient : ∀ {d : ℤ}, yq.toInt * z.toInt = d → d.tdiv z.toInt = yq.toInt :=
    fun hd => tdiv_eq_of_mul hreduced.divisor_ne hd
  have hdvd := hreduced.den
  have hleast := leastFixnum_toInt
  rcases hcases with ⟨-, heq⟩ | ⟨hlt, hnumValue, ⟨hmin, hvalue⟩ | ⟨hmin, hvalue⟩⟩
  · rw [heq] at hzero hreduced hdvd
    apply lowest_of_reduced hreduced hne
    intro hsafe
    refine ⟨rfl, ?_⟩
    intro hdivisor
    rw [← hquotient hdvd, hdivisor]
    exact (normalizeSafe_neg hsafe hzero).1
  · rw [hnumValue] at hzero
    apply lowest_of_reduced hreduced (by rw [hvalue]; omega)
    intro hsafe
    rw [hnumValue, hvalue]
    refine ⟨by ring, ?_⟩
    intro hdivisor
    rw [hvalue] at hdvd
    rw [← hquotient hdvd, hdivisor]
    exact (normalizeSafe_neg hsafe (by omega)).2
  · rw [hnumValue] at hzero
    apply lowest_of_reduced hreduced (by rw [hvalue, hleast]; decide)
    intro hsafe
    have hx0 : x.toInt ≠ 0 := by omega
    rw [hmin, hleast] at hsafe
    exact absurd rfl (hsafe.resolve_left hx0).1

/-! ## The heap -/

theorem adjustHeap_congr {negative : Bool} {i : ℕ} (hsame : h'[i]? = h[i]?) :
    (adjustHeap negative h' num den)[i]? = (adjustHeap negative h num den)[i]? := by
  unfold adjustHeap
  split
  · rw [getElem?_flip, getElem?_flip, getElem?_flip, getElem?_flip, hsame]
  · exact hsame

theorem Fresh.ne_ptr {bound i : ℕ} (hfresh : Fresh bound v) (hi : i < bound) : v ≠ .ptr i := by
  rintro rfl
  exact absurd hi (Nat.not_lt.mpr hfresh)

theorem adjustHeap_fresh {negative : Bool} {bound i : ℕ} (hnum : Fresh bound num)
    (hden : Fresh bound den) (hi : i < bound) : (adjustHeap negative h num den)[i]? = h[i]? := by
  unfold adjustHeap
  split
  · rw [getElem?_flip, if_neg (hden.ne_ptr hi), getElem?_flip, if_neg (hnum.ne_ptr hi)]
  · rfl

theorem SameOrFresh.getElem?_flip {bound i : ℕ} {before after : Val}
    (hsame : SameOrFresh bound before after) (hi : i < bound) :
    (h.flip after)[i]? = (h.flip before)[i]? := by
  rcases hsame with rfl | ⟨⟨n, rfl⟩, hfresh⟩
  · rfl
  · rw [ChibiScheme.getElem?_flip, if_neg (hfresh.ne_ptr hi)]
    rfl

theorem SameOrFresh.fresh {bound bound' : ℕ} {before after : Val}
    (hsame : SameOrFresh bound before after) (hle : bound' ≤ bound) :
    after = before ∨ Fresh bound' after :=
  hsame.imp_right fun hfresh => hfresh.2.mono hle

/-- The ratio object that normalization leaves, and the value it returns. -/
structure Normalized (bound : ℕ) (h' : Heap F) (p : ℕ) (num den num' den' : Val)
    (xc yc : ExactInt) (r : Val) : Prop where
  ratio : h'[p]? = some (.ratio num' den')
  numContents : h'.integer? num' = some xc
  denContents : h'.integer? den' = some yc
  num_eq : num' = num ∨ Fresh bound num'
  den_eq : den' = den ∨ Fresh bound den'
  result : r = if den' = .one then num' else .ptr p

section Reduction

variable (flo : FlonumOps F) (depth : ℕ)

private theorem demote_run (bound : ℕ) (hp : h[p]? = some (.ratio num den))
    (hx : h.integer? num = some x) (hy : h.integer? den = some y) :
    Returns (do
        let (num, den) ← readRatio (.ptr p)
        let num ← normalizeVal num
        writeObj (.ptr p) (.ratio num den)
        let den ← normalizeVal den
        writeObj (.ptr p) (.ratio num den)
        pure (if den = .one then num else .ptr p) : NumM F Val) h fun r h' =>
      h'.length = h.length ∧ (∀ i ≠ p, h'[i]? = h[i]?) ∧
        ∃ num' den', Normalized bound h' p num den num' den' (normalizeInteger x)
          (normalizeInteger y) r := by
  have hlt : p < h.length := (List.getElem?_eq_some_iff.mp hp).1
  obtain ⟨num', hnum, hxc, hnumEq⟩ := normalizeVal_run hx
  have hp1 : (h.set p (.ratio num' den))[p]? = some (.ratio num' den) :=
    getElem?_set_self hlt
  have hy1 : Heap.integer? (h.set p (.ratio num' den)) den = some y := integer?_set_ratio _ hp hy
  have hxc1 := integer?_set_ratio (.ratio num' den) hp hxc
  obtain ⟨den', hden, hyc, hdenEq⟩ := normalizeVal_run hy1
  have hfresh : ∀ {w w' : Val}, (w' = w ∨ ∃ n, w' = .fixnum n) → w' = w ∨ Fresh bound w' := by
    rintro w w' (heq | ⟨n, rfl⟩)
    · exact .inl heq
    · exact .inr trivial
  refine ⟨if den' = .one then num' else .ptr p,
    (h.set p (.ratio num' den)).set p (.ratio num' den'), ?_, by simp, ?_, num', den', ?_⟩
  · refine (bind_run (readRatio_run (v := .ptr p) hp)).trans ?_
    refine (bind_run hnum).trans ?_
    refine (bind_run (writeObj_run hlt _)).trans ?_
    refine (bind_run hden).trans ?_
    exact bind_run (writeObj_run (by simpa using hlt) _)
  · intro i hi
    rw [getElem?_set_ne (Ne.symm hi), getElem?_set_ne (Ne.symm hi)]
  · exact ⟨getElem?_set_self (by simpa using hlt), integer?_set_ratio _ hp1 hxc1,
      integer?_set_ratio _ hp1 hyc, hfresh hnumEq, hfresh hdenEq, rfl⟩

/-- The loop ends, and the two divisions give integers that are not one bignum. -/
structure Divided (x y z xq yq : ExactInt) : Prop where
  loop : gcdInteger (y.toInt.natAbs + 2) x y = some z
  quotientDen : quotientInteger y z = some (.integer yq)
  quotientNum : quotientInteger x z = some (.integer xq)
  distinct : xq.numType = .big → xq ≠ yq

theorem Reduced.divided (hreduced : Reduced x y z xq yq) : Divided x y z xq yq where
  loop := hreduced.loop
  quotientDen := hreduced.quotientDen
  quotientNum := hreduced.quotientNum
  distinct := by
    rintro hbig rfl
    cases xq with
    | fixnum n => simp [ExactInt.numType] at hbig
    | bignum bn =>
      have hmagnitude : 2 ^ 62 ≤ bn.magnitude := hreduced.wideNum
      have hcoprime := hreduced.coprime
      rw [Int.gcd_self, toInt_bignum, bn.natAbs_toInt] at hcoprime
      omega

private theorem not_shared (hdivided : Divided x y z xq yq) (hnum : h.integer? a = some xq)
    (hden : h.integer? b = some yq) : ¬ (a = b ∧ xq.numType = .big) := by
  rintro ⟨rfl, hbig⟩
  exact hdivided.distinct hbig (Option.some.inj (hnum.symm.trans hden))

private theorem adjust_of_not_shared {shared : Prop} [Decidable shared] (hnot : ¬ shared)
    (x y : ExactInt) : adjust shared x y = adjust False x y := by
  unfold adjust
  rw [if_neg hnot, if_neg (not_false)]

theorem reduceRatio_run {divisor : Val} (hp : h[p]? = some (.ratio num den))
    (hx : h.integer? num = some x) (hy : h.integer? den = some y)
    (hz : h.integer? divisor = some z) (hdivided : Divided x y z xq yq) :
    Returns (reduceRatio flo (arith flo (depth + 1)) (.ptr p) num den divisor) h fun r h' =>
      h.length ≤ h'.length ∧
        (∀ i < h.length, i ≠ p → h'[i]? =
          (if z = fixnum sexpOne then adjustHeap yq.negative h num den else h)[i]?) ∧
        ∃ num' den', Normalized h.length h' p num den num' den'
          (normalizeInteger (adjust False xq yq).1) (normalizeInteger (adjust False xq yq).2) r := by
  have hlt : p < h.length := (List.getElem?_eq_some_iff.mp hp).1
  -- the two divisions, each followed by a store into the ratio
  obtain ⟨den₁, h₁, hrunDen, hextends₁, hyq₁, hdenEq⟩ :=
    quotient_run flo depth hdivided.quotientDen hy hz
  have hp₁ : h₁[p]? = some (.ratio num den) := lookup_of_extends (v := .ptr p) hextends₁ hp
  have hlt₁ : p < h₁.length := hlt.trans_le hextends₁.1
  let h₂ : Heap F := h₁.set p (.ratio num den₁)
  have hp₂ : h₂[p]? = some (.ratio num den₁) := getElem?_set_self hlt₁
  have hx₂ : h₂.integer? num = some x := integer?_set_ratio _ hp₁ (integer?_of_extends hextends₁ hx)
  have hz₂ : h₂.integer? divisor = some z :=
    integer?_set_ratio _ hp₁ (integer?_of_extends hextends₁ hz)
  have hyq₂ : h₂.integer? den₁ = some yq := integer?_set_ratio _ hp₁ hyq₁
  obtain ⟨num₁, h₃, hrunNum, hextends₃, hxq₃, hnumEq⟩ :=
    quotient_run flo depth hdivided.quotientNum hx₂ hz₂
  have hlength₂ : h₂.length = h₁.length := by simp [h₂]
  have hp₃ : h₃[p]? = some (.ratio num den₁) := lookup_of_extends (v := .ptr p) hextends₃ hp₂
  have hlt₃ : p < h₃.length := by
    have hle := hextends₃.1
    omega
  let h₄ : Heap F := h₃.set p (.ratio num₁ den₁)
  have hlength₄ : h₄.length = h₃.length := by simp [h₄]
  have hxq₄ : h₄.integer? num₁ = some xq := integer?_set_ratio _ hp₃ hxq₃
  have hyq₄ : h₄.integer? den₁ = some yq :=
    integer?_set_ratio _ hp₃ (integer?_of_extends hextends₃ hyq₂)
  have hframe₄ : ∀ i < h.length, i ≠ p → h₄[i]? = h[i]? := by
    intro i hi hip
    have hle₁ := hextends₁.1
    calc h₄[i]? = h₃[i]? := getElem?_set_ne (Ne.symm hip)
      _ = h₂[i]? := hextends₃.2 i (by omega)
      _ = h₁[i]? := getElem?_set_ne (Ne.symm hip)
      _ = h[i]? := hextends₁.2 i hi
  -- the second sign adjustment
  obtain ⟨num₂, den₂, h₅, hadjust, hadjusted⟩ := makeDenominatorPositive_run flo
    (h := h₄) (getElem?_set_self hlt₃) hxq₄ hyq₄
  have hnotShared := not_shared hdivided hxq₄ hyq₄
  have hnumContents := hadjusted.numContents
  have hdenContents := hadjusted.denContents
  rw [adjust_of_not_shared hnotShared] at hnumContents hdenContents
  obtain ⟨r, h₆, hdemote, hlength₆, hframe₆, num', den', hnormalized⟩ :=
    demote_run h.length hadjusted.ratio hnumContents hdenContents
  have hle₄ : h.length ≤ h₄.length := by
    have hle₁ := hextends₁.1
    have hle₃ := hextends₃.1
    omega
  refine ⟨r, h₆, ?_, ?_, ?_, num', den', ?_⟩
  · refine (bind_run hrunDen).trans ?_
    refine (bind_run (writeObj_run hlt₁ _)).trans ?_
    refine (bind_run hrunNum).trans ?_
    refine (bind_run (writeObj_run hlt₃ _)).trans ?_
    exact (bind_run hadjust).trans hdemote
  · have hle₅ := hadjusted.length
    omega
  · intro i hi hip
    rw [hframe₆ i hip, hadjusted.frame i (by omega) hip, adjustHeap_congr (hframe₄ i hi hip)]
    rcases hdenEq with ⟨hone, rfl⟩ | ⟨hone, hfreshDen⟩
    · obtain ⟨-, rfl⟩ := hnumEq.resolve_right fun hnot => hnot.1 hone
      rw [if_pos hone]
    · obtain ⟨-, hfreshNum⟩ := hnumEq.resolve_left fun hnot => hone hnot.1
      rw [if_neg hone]
      refine adjustHeap_fresh (hfreshNum.mono ?_) hfreshDen hi
      have hle₁ := hextends₁.1
      omega
  · have hquotNum : num₁ = num ∨ Fresh h.length num₁ := by
      rcases hnumEq with ⟨-, heq⟩ | ⟨-, hfresh⟩
      · exact .inl heq
      · exact .inr (hfresh.mono (by have hle₁ := hextends₁.1; omega))
    have hquotDen : den₁ = den ∨ Fresh h.length den₁ := hdenEq.imp And.right And.right
    have hchain : ∀ {w₀ w₁ w₂ w₃ : Val}, (w₁ = w₀ ∨ Fresh h.length w₁) →
        (w₂ = w₁ ∨ Fresh h.length w₂) → (w₃ = w₂ ∨ Fresh h.length w₃) →
        (w₃ = w₀ ∨ Fresh h.length w₃) := by
      rintro w₀ w₁ w₂ w₃ h01 (rfl | h12) (rfl | h23)
      · exact h01
      · exact .inr h23
      · exact .inr h12
      · exact .inr h23
    exact { hnormalized with
      num_eq := hchain hquotNum (hadjusted.num_eq.fresh hle₄) hnormalized.num_eq
      den_eq := hchain hquotDen (hadjusted.den_eq.fresh hle₄) hnormalized.den_eq }

/-- The second adjustment undoes the first in place: the denominator is the least
fixnum, whose sign neither adjustment can change, and nothing is cancelled. -/
def Restored (x y : ExactInt) : Prop :=
  y = leastFixnum ∧ x.toInt ≠ 0 ∧ euclid (-x.toInt) (-2 ^ 62) = 1

instance (x y : ExactInt) : Decidable (Restored x y) :=
  inferInstanceAs (Decidable (_ ∧ _ ∧ _))

/-- The objects that were there before, after `sexp_ratio_normalize`. -/
def normalizedHeap (h : Heap F) (num den : Val) (x y : ExactInt) : Heap F :=
  if y.toInt < 0 ∧ ¬ Restored x y then (h.flip num).flip den else h

private theorem flip_twice (h : Heap F) (num den : Val) (i : ℕ) :
    ((((h.flip num).flip den).flip num).flip den)[i]? = h[i]? := by
  simp only [getElem?_flip]
  by_cases hnum : num = .ptr i <;> by_cases hden : den = .ptr i <;>
    simp [hnum, hden, Function.comp_def, negateObj_negateObj]

private theorem eq_one_of_toInt (hz : z.Wide) (hone : z.toInt = 1) : z = fixnum sexpOne := by
  cases z with
  | fixnum n => exact congrArg _ ((eq_sexpOne_iff n).mpr hone)
  | bignum bn =>
    have hmagnitude : 2 ^ 62 ≤ bn.magnitude := hz
    have habs := bn.natAbs_toInt
    rw [toInt_bignum] at hone
    omega

private theorem quotientInteger_one (hquotient : quotientInteger x (fixnum sexpOne) =
    some (.integer xq)) : xq = x := by
  simpa [quotientInteger, eq_comm] using hquotient

private theorem divisor_eq_one_iff (hreduced : Reduced x y z xq yq) (hy : y.toInt.natAbs ≠ 1) :
    z = fixnum sexpOne ↔ euclid x.toInt y.toInt = 1 := by
  constructor
  · rintro rfl
    obtain rfl := quotientInteger_one hreduced.quotientDen
    rw [← hreduced.divisor.resolve_right hy]
    rfl
  · intro hone
    apply eq_one_of_toInt hreduced.wideDivisor
    rcases hreduced.divisor with hdivisor | hunit
    · rw [hdivisor, hone]
    exfalso
    have hgcd : Int.gcd x.toInt y.toInt = z.toInt.natAbs := by
      rw [← hreduced.num, ← hreduced.den, Int.gcd_mul_right, hreduced.coprime, one_mul]
    have habs := natAbs_euclid x.toInt y.toInt
    rw [hone, hgcd] at habs
    apply hy
    rw [← hreduced.den, Int.natAbs_mul, hunit, ← habs]
    rfl

private theorem adjustHeap_twice {h₁ : Heap F} {num₁ den₁ : Val} (hy : y.Wide) (hx : x.Wide)
    (hadjusted : Adjusted h h₁ p num den num₁ den₁ x y)
    (hzero : (adjust (num = den ∧ x.numType = .big) x y).1.toInt ≠ 0)
    (hshared : num = den ∧ x.numType = .big → x = y)
    (hreduced : Reduced (adjust (num = den ∧ x.numType = .big) x y).1
      (adjust (num = den ∧ x.numType = .big) x y).2 z xq yq) {i : ℕ} (hi : i < h.length)
    (hip : i ≠ p) :
    (if z = fixnum sexpOne then adjustHeap yq.negative h₁ num₁ den₁ else h₁)[i]? =
      (normalizedHeap h num den x y)[i]? := by
  obtain ⟨-, hwide, hcases⟩ := adjust_spec (num = den ∧ x.numType = .big) hx hy
  have hframe := hadjusted.frame i hi hip
  have hleast := leastFixnum_toInt
  have hone : z = fixnum sexpOne → yq = (adjust (num = den ∧ x.numType = .big) x y).2 := by
    rintro rfl
    exact quotientInteger_one hreduced.quotientDen
  have hsecond : (adjust (num = den ∧ x.numType = .big) x y).2.negative = false →
      (if z = fixnum sexpOne then adjustHeap yq.negative h₁ num₁ den₁ else h₁)[i]? = h₁[i]? := by
    intro hnonneg
    split
    · rename_i hz
      rw [hone hz, hnonneg]
      rfl
    · rfl
  by_cases hneg : y.toInt < 0
  · rw [adjustHeap, if_pos (hy.negative_iff.mpr hneg)] at hframe
    have hflips : ¬ Restored x y →
        (normalizedHeap h num den x y)[i]? = ((h.flip num).flip den)[i]? := by
      intro hnot
      rw [normalizedHeap, if_pos ⟨hneg, hnot⟩]
    rcases hcases with ⟨hplain, heq⟩ | ⟨-, hnumValue, ⟨hmin, hvalue⟩ | ⟨hmin, hvalue⟩⟩
    · -- one object over itself: the divisor is the object
      have hsh := hplain.resolve_left (not_not.mpr hneg)
      obtain rfl := hshared hsh
      have hbig : ∃ bn, x = bignum bn := by
        cases x with
        | fixnum n => simp [ExactInt.numType] at hsh
        | bignum bn => exact ⟨bn, rfl⟩
      obtain ⟨bn, rfl⟩ := hbig
      have hnot : ¬ Restored (bignum bn) (bignum bn) := by
        rintro ⟨hmin, -⟩
        exact absurd hmin (by simp [leastFixnum])
      have hz : z ≠ fixnum sexpOne := by
        rintro rfl
        have hxq := quotientInteger_one hreduced.quotientNum
        have hyq := quotientInteger_one hreduced.quotientDen
        have hcoprime := hreduced.coprime
        rw [hxq, hyq, heq, Int.gcd_self, toInt_bignum, bn.natAbs_toInt] at hcoprime
        have hmagnitude : 2 ^ 62 ≤ bn.magnitude := hx
        omega
      rw [if_neg hz, hframe, hflips hnot]
    · rw [hsecond, hframe, hflips fun hrestored => hmin hrestored.1]
      rw [Bool.eq_false_iff, Ne, hwide.negative_iff, hvalue]
      omega
    · -- the least fixnum stays negative
      have hdivisor := divisor_eq_one_iff hreduced (by rw [hvalue, hleast]; decide)
      rw [hvalue, hleast, hnumValue] at hdivisor
      rw [hnumValue] at hzero
      by_cases hz : z = fixnum sexpOne
      · have hrestored : Restored x y := ⟨hmin, by omega, hdivisor.mp hz⟩
        rw [if_pos hz, hone hz, hvalue, normalizedHeap, if_neg (fun hnot => hnot.2 hrestored),
          ← flip_twice h num den i]
        show ((h₁.flip num₁).flip den₁)[i]? = _
        rw [hadjusted.den_eq.getElem?_flip hi, getElem?_flip _ den, getElem?_flip _ den,
          hadjusted.num_eq.getElem?_flip hi, getElem?_flip _ num, getElem?_flip _ num, hframe]
      · rw [if_neg hz, hframe, hflips fun hrestored => hz (hdivisor.mpr hrestored.2.2)]
  · have hnonneg : y.negative = false := by
      rw [Bool.eq_false_iff, Ne, hy.negative_iff]
      exact hneg
    have hsame : (adjust (num = den ∧ x.numType = .big) x y).2 = y := by
      rcases hcases with ⟨-, heq⟩ | ⟨hlt, -⟩
      · rw [heq]
      · exact absurd hlt hneg
    rw [hnonneg] at hframe
    rw [hsecond (by rw [hsame, hnonneg]), normalizedHeap, if_neg fun hnot => hneg hnot.1]
    exact hframe

theorem sexpRatioNormalize_divided (hp : h[p]? = some (.ratio num den)) (hx : h.integer? num = some x)
    (hy : h.integer? den = some y)
    (hnum : (adjust (num = den ∧ x.numType = .big) x y).1 ≠ fixnum sexpZero)
    (hden : (adjust (num = den ∧ x.numType = .big) x y).2 ≠ fixnum sexpZero)
    (hdivided : Divided (adjust (num = den ∧ x.numType = .big) x y).1
      (adjust (num = den ∧ x.numType = .big) x y).2 z xq yq) :
    Returns (sexpRatioNormalize flo (arith flo (depth + 1)) (.ptr p)) h fun r h' =>
      h.length ≤ h'.length ∧
        ∃ num₁ den₁ h₁ num' den', Adjusted h h₁ p num den num₁ den₁ x y ∧
          (∀ i < h.length, i ≠ p → h'[i]? =
            (if z = fixnum sexpOne then adjustHeap yq.negative h₁ num₁ den₁ else h₁)[i]?) ∧
          Normalized h.length h' p num den num' den' (normalizeInteger (adjust False xq yq).1)
            (normalizeInteger (adjust False xq yq).2) r := by
  obtain ⟨num₁, den₁, h₁, hadjust, hadjusted⟩ := makeDenominatorPositive_run flo hp hx hy
  have hdenZero : den₁ ≠ .zero := by
    rwa [Ne, eq_zero_iff hadjusted.denContents]
  have hnumZero : num₁ ≠ .zero := by
    rwa [Ne, eq_zero_iff hadjusted.numContents]
  have hread := readRatio_run (v := .ptr p) hadjusted.ratio
  obtain ⟨divisor, h₂, hloop, hextends, hz⟩ :=
    gcdLoop_run flo depth hdivided.loop hadjusted.numContents hadjusted.denContents
  have hratio : h₂[p]? = some (.ratio num₁ den₁) :=
    lookup_of_extends (v := .ptr p) hextends hadjusted.ratio
  obtain ⟨r, h₃, hreduce, hlength, hframe, num', den', hnormalized⟩ :=
    reduceRatio_run flo depth hratio (integer?_of_extends hextends hadjusted.numContents)
      (integer?_of_extends hextends hadjusted.denContents) hz hdivided
  have hle₁ := hadjusted.length
  have hle₂ := hextends.1
  refine ⟨r, h₃, ?_, by omega, num₁, den₁, h₁, num', den', hadjusted, ?_, ?_⟩
  · refine (bind_run hadjust).trans ((bind_run hread).trans ?_)
    simp only [if_neg hdenZero, if_neg hnumZero]
    refine (bind_run (readInt_run hadjusted.denContents)).trans ((bind_run hloop).trans ?_)
    cases divisor with
    | exception message => simp [Heap.integer?, Heap.lookup] at hz
    | _ => exact hreduce
  · intro i hi hip
    rw [hframe i (by omega) hip]
    have hsame : h₂[i]? = h₁[i]? := hextends.2 i (by omega)
    split
    · exact adjustHeap_congr hsame
    · exact hsame
  · have hchain : ∀ {w₀ w₁ w₂ : Val}, SameOrFresh h.length w₀ w₁ →
        (w₂ = w₁ ∨ Fresh h₂.length w₂) → (w₂ = w₀ ∨ Fresh h.length w₂) := by
      rintro w₀ w₁ w₂ h01 (rfl | h12)
      · exact h01.fresh le_rfl
      · exact .inr (h12.mono (by omega))
    exact { hnormalized with
      num_eq := hchain hadjusted.num_eq hnormalized.num_eq
      den_eq := hchain hadjusted.den_eq hnormalized.den_eq }

theorem sexpRatioNormalize_run (hp : h[p]? = some (.ratio num den)) (hx : WideInt h num x)
    (hy : WideInt h den y) (hne : y.toInt ≠ 0) :
    Returns (sexpRatioNormalize flo (arith flo (depth + 1)) (.ptr p)) h fun r h' =>
      h.length ≤ h'.length ∧
        (∀ i < h.length, i ≠ p → h'[i]? = (normalizedHeap h num den x y)[i]?) ∧
        (x.toInt = 0 ∧ r = .zero ∨
          x.toInt ≠ 0 ∧ ∃ num' den' xc yc, Normalized h.length h' p num den num' den' xc yc r ∧
            Lowest x y xc yc) := by
  have hshared : num = den ∧ x.numType = .big → x = y := by
    rintro ⟨rfl, -⟩
    exact Option.some.inj (hx.1.symm.trans hy.1)
  obtain ⟨hwideNum, hwideDen, hcases⟩ := adjust_spec (num = den ∧ x.numType = .big) hx.2 hy.2
  have hleast := leastFixnum_toInt
  have hden : (adjust (num = den ∧ x.numType = .big) x y).2.toInt ≠ 0 := by
    rcases hcases with ⟨-, heq⟩ | ⟨hlt, -, ⟨-, hvalue⟩ | ⟨-, hvalue⟩⟩
    · rwa [heq]
    · rw [hvalue]
      omega
    · rw [hvalue, hleast]
      decide
  have hnum : (adjust (num = den ∧ x.numType = .big) x y).1.toInt = 0 ↔ x.toInt = 0 := by
    rcases hcases with ⟨-, heq⟩ | ⟨hlt, hvalue, -⟩
    · rw [heq]
    · rw [hvalue]
      omega
  by_cases hzero : x.toInt = 0
  · obtain ⟨num₁, den₁, h₁, hadjust, hadjusted⟩ := makeDenominatorPositive_run flo hp hx.1 hy.1
    have hdenZero : den₁ ≠ .zero := by
      rw [Ne, eq_zero_iff hadjusted.denContents, hwideDen.eq_zero_iff]
      exact hden
    have hnumZero : num₁ = .zero := by
      rw [eq_zero_iff hadjusted.numContents, hwideNum.eq_zero_iff, hnum]
      exact hzero
    refine ⟨.zero, h₁, ?_, hadjusted.length, ?_, .inl ⟨hzero, rfl⟩⟩
    · refine (bind_run hadjust).trans ((bind_run (readRatio_run (v := .ptr p) hadjusted.ratio)).trans ?_)
      simp only [if_neg hdenZero, if_pos hnumZero]
      rfl
    · intro i hi hip
      rw [hadjusted.frame i hi hip, adjustHeap, normalizedHeap]
      have hnot : ¬ Restored x y := fun hrestored => hrestored.2.1 hzero
      simp only [hy.2.negative_iff, hnot, not_false_eq_true, and_true]
  · have hnumNe : (adjust (num = den ∧ x.numType = .big) x y).1.toInt ≠ 0 :=
      fun h0 => hzero (hnum.mp h0)
    obtain ⟨z, xq, yq, hreduced⟩ := exists_reduced hwideNum hwideDen hden
    obtain ⟨r, h', hrun, hlength, num₁, den₁, h₁, num', den', hadjusted, hframe, hnormalized⟩ :=
      sexpRatioNormalize_divided flo depth hp hx.1 hy.1
        (fun h0 => hnumNe ((hwideNum.eq_zero_iff).mp h0))
        (fun h0 => hden ((hwideDen.eq_zero_iff).mp h0)) hreduced.divided
    refine ⟨r, h', hrun, hlength, ?_, .inr ⟨hzero, num', den', _, _, hnormalized,
      lowest_of_adjusted hx.2 hy.2 hne hnumNe hreduced⟩⟩
    intro i hi hip
    rw [hframe i hi hip]
    exact adjustHeap_twice hy.2 hx.2 hadjusted hnumNe hshared hreduced hi hip

end Reduction

end ChibiScheme
