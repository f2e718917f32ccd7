import ChibiScheme.Numeric.Rational

/-!
# Exact rationals: subtraction

`sexp_sub` on ratios adds a negated copy of the second operand; with the ratio
first and an integer second it computes the opposite difference and negates the
result in place.  Each negation is made on the numerator alone and is wrong for
the least fixnum, and negating `2^62` in place leaves a bignum where a fixnum
belongs.  `SubSafe` lists what has to be avoided.
-/

namespace ChibiScheme

open Stateful ExactInt Euclid List

variable {F : Type} {h h' : Heap F} {v a b num den : Val} {x y : ExactInt} {p q : ℚ} {m d : ℤ}

/-! ## Negating a result in place -/

private theorem denominator_after_flip (hden : WideInt h den y) (hne : y.toInt ≠ 0) (num : Val) :
    ∃ y', WideInt (h.flip num) den y' ∧ y'.toInt ≠ 0 ∧ (num ≠ den → y' = y) := by
  by_cases hshared : num = den
  · subst hshared
    refine ⟨y.flip, ⟨integer?_flip_self hden.1, ?_⟩, ?_, fun hnot => absurd rfl hnot⟩
    · cases y with
      | fixnum n => trivial
      | bignum bn => exact hden.2
    · cases y with
      | fixnum n => exact hne
      | bignum bn => simpa [ExactInt.flip] using hne
  · exact ⟨y, ⟨(integer?_flip_of_ne hshared).trans hden.1, hden.2⟩, hne, fun _ => rfl⟩

private theorem negateRatio_run (flo : FlonumOps F) {addr : ℕ}
    (hratio : IsRatio h (.ptr addr) num den x y) :
    ∃ y', sexpNegateMaybeRatio flo (.ptr addr) h =
        some (.ptr addr, (h.flip num).set addr (.ratio (negateVal num) den)) ∧
      IsRatio ((h.flip num).set addr (.ratio (negateVal num) den)) (.ptr addr) (negateVal num) den
        (negateExact x) y' ∧ (num ≠ den → y' = y) := by
  have hlt : addr < h.length := (List.getElem?_eq_some_iff.mp hratio.lookup).1
  have hnum : ∀ {k : ℕ}, num = .ptr k → k ≠ addr := by
    rintro k rfl rfl
    exact ne_ptr_of_integer hratio.lookup hratio.num.1 rfl
  have hratio₁ : (h.flip num)[addr]? = some (.ratio num den) := by
    rw [getElem?_flip, if_neg fun heq => hnum heq rfl]
    exact hratio.lookup
  obtain ⟨y', hden, hne, hsame⟩ := denominator_after_flip hratio.den hratio.den_ne num
  refine ⟨y', ?_, ⟨?_, ⟨?_, hratio.num.2.negateExact⟩, ⟨?_, hden.2⟩, hne⟩, hsame⟩
  · refine (bind_run (numberType_ratio hratio.lookup)).trans ?_
    refine (bind_run (readRatio_run hratio.lookup)).trans ?_
    refine (bind_run (sexpNegateExact_run num h)).trans ?_
    exact bind_run (writeObj_run (by simpa using hlt) _)
  · exact getElem?_set_self (by simpa using hlt)
  · apply integer?_negateVal _ hratio.num.1
    rintro k rfl
    rw [getElem?_set_ne (hnum rfl).symm]
  · exact integer?_set_ratio _ hratio₁ hden.1

theorem negateExact_canonical (hx : x.Canonical) (hlow : x.toInt ≠ -2 ^ 62)
    (hhigh : x.toInt ≠ 2 ^ 62) :
    (negateExact x).Canonical ∧ (negateExact x).toInt = -x.toInt := by
  cases x with
  | fixnum n =>
    refine ⟨trivial, negateExact_toInt_of_ne ?_⟩
    intro hmin
    exact hlow (by rw [hmin, leastFixnum_toInt])
  | bignum bn =>
    refine ⟨?_, bn.toInt_negate⟩
    have hout : ¬ InFixnumRange bn.toInt := hx
    show ¬ InFixnumRange bn.negate.toInt
    rw [inFixnumRange_iff] at hout ⊢
    rw [toInt_bignum] at hlow hhigh
    rw [bn.toInt_negate]
    omega

theorem sexpNegateMaybeRatio_run (flo : FlonumOps F) {bound : ℕ} (hwide : WideQ h v)
    (hfresh : DeepFresh bound h v) :
    Returns (sexpNegateMaybeRatio flo v) h fun r h' =>
      h'.length = h.length ∧ (∀ i < bound, h'[i]? = h[i]?) ∧ DeepFresh bound h' r ∧ WideQ h' r ∧
        ∀ q, RepRatio h v q → q.num ≠ -2 ^ 62 → q.num ≠ 2 ^ 62 → RepRatio h' r (-q) := by
  obtain ⟨m, d, hholds⟩ := hwide
  cases hholds with
  | integer hx =>
    rename_i x
    have hrun : sexpNegateMaybeRatio flo v h = some (negateVal v, h.flip v) := by
      refine (bind_run (numberType_integer hx.1)).trans ?_
      cases x <;> exact sexpNegate_run flo hx.1
    have hcontents : (h.flip v).integer? (negateVal v) = some (negateExact x) :=
      integer?_negateVal _ hx.1 fun _ _ => rfl
    have hwide : WideInt (h.flip v) (negateVal v) (negateExact x) :=
      ⟨hcontents, hx.2.negateExact⟩
    refine Returns.of_run hrun ⟨length_flip h v, ?_, ⟨?_, ?_⟩, ⟨_, _, .integer hwide⟩, ?_⟩
    · intro i hi
      rw [getElem?_flip, if_neg (hfresh.1.ne_ptr hi)]
    · rcases negateVal_sameOrFresh bound v with heq | ⟨-, hnew⟩
      · rw [heq]
        exact hfresh.1
      · exact hnew
    · intro num den hlookup
      exact absurd hlookup (lookup_ne_ratio hcontents)
    · rintro q ⟨num, den, m, d, hlookup, -⟩
      exact absurd hlookup (lookup_ne_ratio hx.1)
  | ratio hratio =>
    rename_i num den x y
    cases v with
    | ptr addr =>
      obtain ⟨y', hrun, hresult, hsame⟩ := negateRatio_run flo hratio
      obtain ⟨hfreshNum, hfreshDen⟩ := hfresh.2 num den hratio.lookup
      refine Returns.of_run hrun ⟨by simp, ?_, ⟨hfresh.1, ?_⟩, ⟨_, _, .ratio hresult⟩, ?_⟩
      · intro i hi
        rw [getElem?_set_ne, getElem?_flip, if_neg (hfreshNum.ne_ptr hi)]
        rintro rfl
        exact hfresh.1.ne_ptr hi rfl
      · intro num' den' hlookup
        have heq := hresult.lookup.symm.trans hlookup
        simp only [Option.some.injEq, Obj.ratio.injEq] at heq
        rw [← heq.1, ← heq.2]
        refine ⟨?_, hfreshDen⟩
        rcases negateVal_sameOrFresh bound num with heq | ⟨-, hnew⟩
        · rw [heq]
          exact hfreshNum
        · exact hnew
      · rintro q ⟨num', den', m, d, hlookup, ⟨xc, hxc, hcanonical, rfl⟩,
          ⟨yc, hyc, hcanonical', rfl⟩, hd, hcoprime, rfl⟩ hlow hhigh
        have heq := hratio.lookup.symm.trans hlookup
        simp only [Option.some.injEq, Obj.ratio.injEq] at heq
        obtain ⟨rfl, rfl⟩ := heq
        obtain rfl := Option.some.inj (hxc.symm.trans hratio.num.1)
        obtain rfl := Option.some.inj (hyc.symm.trans hratio.den.1)
        rw [Rat.num_div_eq_of_coprime (by omega) hcoprime] at hlow hhigh
        obtain ⟨hcanonicalNeg, hvalue⟩ := negateExact_canonical hcanonical hlow hhigh
        have hdistinct : num ≠ den := by
          rintro rfl
          obtain rfl := Option.some.inj (hxc.symm.trans hyc)
          rw [Int.gcd_self] at hcoprime
          omega
        obtain rfl := hsame hdistinct
        refine ⟨_, _, -xc.toInt, y'.toInt, hresult.lookup,
          ⟨_, hresult.num.1, hcanonicalNeg, hvalue⟩,
          ⟨_, hresult.den.1, hcanonical', rfl⟩, hd, ?_, ?_⟩
        · rw [Int.neg_gcd]
          exact hcoprime
        · push_cast
          rw [neg_div]
    | _ =>
      have hlookup := hratio.lookup
      simp [Heap.lookup] at hlookup

/-! ## The ratio rows -/

section Tables

variable (flo : FlonumOps F) (depth : ℕ)

theorem negatedCopy_run (hb : IsRatio h b num den x y) :
    Returns (negatedCopy b) h fun tmp2 h' =>
      Extends h h' ∧ ∃ num', IsRatio h' tmp2 num' den (negateExact x) y := by
  let h₁ : Heap F := h ++ [.ratio num den]
  have hext : Extends h h₁ := Extends.append h _
  have hp : h₁[h.length]? = some (.ratio num den) := by simp [h₁]
  refine Returns.of_bind_run (readRatio_run hb.lookup) ?_
  refine Returns.of_bind_run (show sexpMakeRatio num den h = some (.ptr h.length, h₁) from rfl) ?_
  refine Returns.of_bind_run (numberType_integer (hb.num.of_extends hext).1) ?_
  cases x with
  | fixnum n =>
    obtain rfl := integer?_eq_some_fixnum_iff.mp hb.num.1
    let h₂ : Heap F := h₁.set h.length (.ratio (.fixnum (sexpFxNeg n)) den)
    have hlt : h.length < h₁.length := by simp [h₁]
    have hext₂ : Extends h h₂ := by
      refine ⟨by simp [h₂, h₁], fun i hi => ?_⟩
      rw [getElem?_set_ne (by omega)]
      exact hext.2 i hi
    refine ⟨.ptr h.length, h₂, ?_, hext₂, .fixnum (sexpFxNeg n), getElem?_set_self hlt,
      ⟨rfl, trivial⟩, hb.den.of_extends hext₂, hb.den_ne⟩
    refine (bind_run (readRatio_run (v := .ptr h.length) hp)).trans ?_
    refine (bind_run (show sexpNegateExact _ h₁ = some _ from rfl)).trans ?_
    exact bind_run (writeObj_run hlt _)
  | bignum bn =>
    let h₂ : Heap F := h₁ ++ [.bignum bn]
    let h₃ : Heap F := h₂.set h.length (.ratio (.ptr h₁.length) den)
    let h₄ : Heap F := (h₃.set h₁.length (.bignum bn.negate)).set h.length
      (.ratio (.ptr h₁.length) den)
    have hlength₁ : h₁.length = h.length + 1 := by simp [h₁]
    have hlength₂ : h₂.length = h.length + 2 := by simp [h₂, hlength₁]
    have hlength₃ : h₃.length = h.length + 2 := by simp [h₃, hlength₂]
    have hratio₃ : h₃[h.length]? = some (.ratio (.ptr h₁.length) den) :=
      getElem?_set_self (by omega)
    have hnum₃ : h₃[h₁.length]? = some (.bignum bn) := by
      rw [getElem?_set_ne (by omega)]
      simp [h₂]
    have hext₄ : Extends h h₄ := by
      refine ⟨by simp [h₄, hlength₃], fun i hi => ?_⟩
      rw [getElem?_set_ne (by omega), getElem?_set_ne (by omega),
        getElem?_set_ne (by omega), getElem?_append_left (by omega)]
      exact hext.2 i hi
    have hnum₄ : h₄.integer? (.ptr h₁.length) = some (bignum bn.negate) := by
      rw [integer?_eq_some_bignum_iff]
      show h₄[h₁.length]? = _
      rw [getElem?_set_ne (by omega), getElem?_set_self (by omega)]
    have hratio₄ : h₄[h.length]? = some (.ratio (.ptr h₁.length) den) :=
      getElem?_set_self (by simp [hlength₃])
    refine ⟨.ptr h.length, h₄, ?_, hext₄, .ptr h₁.length, hratio₄, ⟨hnum₄, hb.num.2⟩,
      hb.den.of_extends hext₄, hb.den_ne⟩
    refine (bind_run (readInt_run (hb.num.of_extends hext).1)).trans ?_
    refine (bind_run (show allocInt (bignum bn) h₁ = some (.ptr h₁.length, h₂) from rfl)).trans ?_
    refine (bind_run (writeObj_run (show h.length < h₂.length by omega) _)).trans ?_
    refine (bind_run (readRatio_run (v := .ptr h.length) hratio₃)).trans ?_
    have hnegate : sexpNegateExact (.ptr h₁.length) h₃ =
        some (.ptr h₁.length, h₃.set h₁.length (.bignum bn.negate)) := by
      simp only [sexpNegateExact, hnum₃]
    refine (bind_run hnegate).trans ?_
    exact bind_run (writeObj_run (by simp [hlength₃]) _)

/-- What `sexp_sub` returns on exact rationals: a new number, whatever the values. -/
structure Subtracted (h : Heap F) (r : Val) (h' : Heap F) : Prop where
  frame : Extends h h'
  fresh : DeepFresh h.length h' r
  wide : WideQ h' r

theorem ReducesTo.subtracted {r : Val} (hreduces : ReducesTo h m d r h') : Subtracted h r h' :=
  ⟨hreduces.frame, hreduces.fresh, hreduces.wide⟩

theorem Subtracted.of_extends {h₁ : Heap F} {r : Val} (hextends : Extends h h₁)
    (hsub : Subtracted h₁ r h') : Subtracted h r h' where
  frame := hextends.trans hsub.frame
  fresh := ⟨hsub.fresh.1.mono hextends.1, fun num den hlookup =>
    (hsub.fresh.2 num den hlookup).imp (·.mono hextends.1) (·.mono hextends.1)⟩
  wide := hsub.wide

variable {anum aden bnum bden : Val} {xa ya xb yb : ExactInt}

theorem subRatio_run (ha : IsRatio h a anum aden xa ya) (hb : IsRatio h b bnum bden xb yb) :
    Returns (subRatio flo (arith flo (depth + 1)) a b false) h
      (ReducesTo h (xa.toInt * yb.toInt + (negateExact xb).toInt * ya.toInt)
        (ya.toInt * yb.toInt)) := by
  refine (negatedCopy_run hb).bind ?_
  rintro tmp2 h₁ ⟨hext, num', hcopy⟩
  refine (sexpRatioAdd_run flo depth (ha.of_extends hext) hcopy).bind ?_
  intro r h₂ hreduces
  exact Returns.pure (hreduces.of_extends hext)

theorem subRatio_negated_run (ha : IsRatio h a anum aden xa ya)
    (hb : IsRatio h b bnum bden xb yb) :
    Returns (subRatio flo (arith flo (depth + 1)) a b true) h fun r h' =>
      Subtracted h r h' ∧
        ∀ q : ℚ, q = ((xa.toInt * yb.toInt + (negateExact xb).toInt * ya.toInt : ℤ) : ℚ) /
            ((ya.toInt * yb.toInt : ℤ) : ℚ) → q.den ≠ 1 →
          NormalizeSafe (xa.toInt * yb.toInt + (negateExact xb).toInt * ya.toInt)
            (ya.toInt * yb.toInt) → q.num ≠ -2 ^ 62 → q.num ≠ 2 ^ 62 → RepQ h' r (-q) := by
  refine (negatedCopy_run hb).bind ?_
  rintro tmp2 h₁ ⟨hext, num', hcopy⟩
  refine (sexpRatioAdd_run flo depth (ha.of_extends hext) hcopy).bind ?_
  intro r h₂ hreduces
  have hreduces' := hreduces.of_extends hext
  refine (sexpNegateMaybeRatio_run flo hreduces'.wide hreduces'.fresh).mono ?_
  rintro r' h₃ ⟨hlength, hframe, hfresh, hwide, hvalue⟩
  refine ⟨⟨⟨hreduces'.frame.1.trans hlength.ge, fun i hi => ?_⟩, hfresh, hwide⟩, ?_⟩
  · rw [hframe i hi, hreduces'.frame.2 i hi]
  intro q hq hden hsafe hlow hhigh
  have hrep := hreduces.value hsafe
  rw [← hq] at hrep
  rcases hrep with ⟨n, -, hn⟩ | hratio
  · exact absurd (by rw [hn]; rfl) hden
  · exact .inr (hvalue q hratio hlow hhigh)

end Tables

/-! ## The table -/

/-- The operands of `sexp_sub` that no row treats wrongly.  The fixnum row is the
virtual machine's to check for overflow; the others negate a numerator. -/
def SubSafe (p q : ℚ) : Prop :=
  if q.den = 1 then
    if p.den = 1 then
      InFixnumRange p.num → InFixnumRange q.num → InFixnumRange (p.num - q.num)
    else
      p.num ≠ -2 ^ 62 ∧ NormalizeSafe (q.num * p.den - p.num) p.den ∧ (q - p).num ≠ -2 ^ 62 ∧
        (q - p).num ≠ 2 ^ 62
  else q.num ≠ -2 ^ 62 ∧ NormalizeSafe (p.num * q.den - q.num * p.den) (p.den * q.den)

private theorem negateExact_toInt_of_num (hx : x.toInt ≠ -2 ^ 62) :
    (negateExact x).toInt = -x.toInt := by
  apply negateExact_toInt_of_ne
  rintro rfl
  exact hx leastFixnum_toInt

private theorem sub_eq_fraction (p q : ℚ) :
    p - q = ((p.num * q.den - q.num * p.den : ℤ) : ℚ) / ((p.den * q.den : ℤ) : ℚ) := by
  have hp : (p.den : ℚ) ≠ 0 := by exact_mod_cast p.den_ne_zero
  have hq : (q.den : ℚ) ≠ 0 := by exact_mod_cast q.den_ne_zero
  push_cast
  rw [mul_comm (q.num : ℚ), ← div_sub_div _ _ hp hq, p.num_div_den, q.num_div_den]

private theorem subtracted_left {bnum bden r : Val} {xa ya xb yb : ExactInt}
    (hb : IsRatio h b bnum bden xb yb)
    (hreduces : ReducesTo h (xa.toInt * yb.toInt + (negateExact xb).toInt * ya.toInt)
      (ya.toInt * yb.toInt) r h') (hrep : RepQ h b q) (hnum : p.num = xa.toInt)
    (hden : (p.den : ℤ) = ya.toInt) (hsafe : SubSafe p q) : RepQ h' r (p - q) := by
  obtain ⟨hqnum, hqden⟩ := hrep.holds_eq (.ratio hb)
  rw [SubSafe, if_neg (hrep.den_ne_one hb)] at hsafe
  have hvalue := hreduces.value
  rw [negateExact_toInt_of_num (by rw [← hqnum]; exact hsafe.1), ← hnum, ← hden, ← hqnum, ← hqden,
    neg_mul, ← sub_eq_add_neg, ← sub_eq_fraction] at hvalue
  exact hvalue hsafe.2

/-- What `sexp_sub` returns: a new number, the difference of safe operands. -/
def Difference (h : Heap F) (a b r : Val) (h' : Heap F) : Prop :=
  Subtracted h r h' ∧ ∀ p q, RepQ h a p → RepQ h b q → SubSafe p q → RepQ h' r (p - q)

private theorem den_sub_ne_one (hq : q.den = 1) (hp : p.den ≠ 1) : (q - p).den ≠ 1 := by
  intro hint
  apply hp
  have hq' : q = (q.num : ℚ) := ((Rat.den_eq_one_iff q).mp hq).symm
  have hqp : q - p = ((q - p).num : ℚ) := ((Rat.den_eq_one_iff _).mp hint).symm
  have hp' : p = ((q.num - (q - p).num : ℤ) : ℚ) := by
    push_cast
    rw [← hqp, ← hq', sub_sub_cancel]
  rw [hp']
  rfl

section Rows

variable (flo : FlonumOps F) (depth : ℕ) {anum aden bnum bden : Val} {xa ya xb yb : ExactInt}

private theorem sub_integers (hx : WideInt h a x) (hy : WideInt h b y) :
    Returns ((arith flo (depth + 2)).sub a b) h (Difference h a b) := by
  obtain ⟨v, h', hrun, hextends, hv, hfresh⟩ := allocInt_run (subInteger x y) h
  have hcanonical := subInteger_canonical x y
  refine ⟨v, h', (subTable_integer flo _ hx.1 hy.1).trans hrun,
    (reducesTo_integer hextends hv hcanonical hfresh).subtracted, ?_⟩
  intro p q hp hq hsafe
  obtain ⟨hpnum, hpden⟩ := hp.holds_eq (.integer hx)
  obtain ⟨hqnum, hqden⟩ := hq.holds_eq (.integer hy)
  rw [SubSafe, if_pos (by omega), if_pos (by omega), hpnum, hqnum] at hsafe
  have hexact : SubExact x y := by
    cases x with
    | fixnum n =>
      cases y with
      | fixnum k => exact hsafe n.range k.range
      | bignum bn => trivial
    | bignum bn => trivial
  have hvalue : p - q = ((x.toInt - y.toInt : ℤ) : ℚ) := by
    rw [sub_eq_fraction, hpnum, hpden, hqnum, hqden]
    simp
  rw [hvalue]
  exact RepInt.repQ ⟨_, hv, hcanonical, (subInteger_toInt_iff x y).mpr hexact⟩

private theorem sub_integer_ratio (hx : WideInt h a x) (hb : IsRatio h b bnum bden xb yb) :
    Returns (do subRatio flo (arith flo (depth + 1)) (← sexpMakeRatio a .one) b false) h
      (Difference h a b) := by
  have hext : Extends h (h ++ [.ratio a .one]) := Extends.append h _
  refine Returns.of_bind_run (show sexpMakeRatio a .one h = some (.ptr h.length, _) from rfl) ?_
  refine (subRatio_run flo depth (wrap_isRatio hx) (hb.of_extends hext)).mono ?_
  intro r h' hreduces
  have hreduces' := hreduces.of_extends hext
  refine ⟨hreduces'.subtracted, ?_⟩
  intro p q hp hq hsafe
  obtain ⟨hpnum, hpden⟩ := hp.holds_eq (.integer hx)
  exact subtracted_left hb hreduces' hq hpnum (hpden.trans sexpOne_val.symm) hsafe

private theorem sub_ratio_integer (ha : IsRatio h a anum aden xa ya) (hy : WideInt h b y) :
    Returns (do subRatio flo (arith flo (depth + 1)) (← sexpMakeRatio b .one) a true) h
      (Difference h a b) := by
  have hone : (fixnum sexpOne).toInt = 1 := sexpOne_val
  have hext : Extends h (h ++ [.ratio b .one]) := Extends.append h _
  refine Returns.of_bind_run (show sexpMakeRatio b .one h = some (.ptr h.length, _) from rfl) ?_
  refine (subRatio_negated_run flo depth (wrap_isRatio hy) (ha.of_extends hext)).mono ?_
  rintro r h' ⟨hsub, hvalue⟩
  refine ⟨hsub.of_extends hext, ?_⟩
  intro p q hp hq hsafe
  obtain ⟨hpnum, hpden⟩ := hp.holds_eq (.ratio ha)
  obtain ⟨hqnum, hqden⟩ := hq.holds_eq (.integer hy)
  have hpone := hp.den_ne_one ha
  have hqone : q.den = 1 := by omega
  rw [SubSafe, if_pos hqone, if_neg hpone] at hsafe
  obtain ⟨hnum, hnormal, hlow, hhigh⟩ := hsafe
  rw [negateExact_toInt_of_num (by rw [← hpnum]; exact hnum), hone, ← hpnum, ← hpden, ← hqnum,
    mul_one, one_mul, ← sub_eq_add_neg] at hvalue
  have hfraction : q - p = ((q.num * p.den - p.num : ℤ) : ℚ) / ((p.den : ℤ) : ℚ) := by
    rw [sub_eq_fraction, hqden, mul_one, one_mul]
  rw [← neg_sub]
  exact hvalue (q - p) hfraction (den_sub_ne_one hqone hpone) hnormal hlow hhigh

theorem sexpSub_run {m' d' : ℤ} (ha : Holds h a m d) (hb : Holds h b m' d') :
    Returns ((arith flo (depth + 2)).sub a b) h (Difference h a b) := by
  cases ha with
  | integer hx =>
    rename_i x
    cases hb with
    | integer hy => exact sub_integers flo depth hx hy
    | ratio hratio =>
      refine Returns.of_bind_run (numberType_integer hx.1) ?_
      refine Returns.of_bind_run (numberType_ratio hratio.lookup) ?_
      cases x <;> exact sub_integer_ratio flo depth hx hratio
  | ratio hratio =>
    cases hb with
    | integer hy =>
      rename_i y
      refine Returns.of_bind_run (numberType_ratio hratio.lookup) ?_
      refine Returns.of_bind_run (numberType_integer hy.1) ?_
      cases y <;> exact sub_ratio_integer flo depth hratio hy
    | ratio hratio' =>
      refine Returns.of_bind_run (numberType_ratio hratio.lookup) ?_
      refine Returns.of_bind_run (numberType_ratio hratio'.lookup) ?_
      refine (subRatio_run flo depth hratio hratio').mono ?_
      intro r h' hreduces
      refine ⟨hreduces.subtracted, ?_⟩
      intro p q hp hq hsafe
      obtain ⟨hpnum, hpden⟩ := hp.holds_eq (.ratio hratio)
      exact subtracted_left hratio' hreduces hq hpnum hpden hsafe

end Rows

/-- On two fixnums `sexp_sub` boxes the difference, which is exact in the fixnum range only. -/
theorem sexpSub_fixnums_iff (flo : FlonumOps F) (depth : ℕ) (h : Heap F) (m n : Fixnum) :
    Returns ((arith flo (depth + 3)).sub (.fixnum m) (.fixnum n)) h
        (fun r h' => RepQ h' r ((m.val - n.val : ℤ) : ℚ)) ↔ InFixnumRange (m.val - n.val) := by
  have hrun : (arith flo (depth + 3)).sub (.fixnum m) (.fixnum n) h =
      some (.fixnum (sexpMakeFixnum (m.val - n.val)), h) := rfl
  constructor
  · rintro ⟨r, h', hsub, hrep⟩
    obtain ⟨rfl, rfl⟩ := Prod.mk.inj (Option.some.inj (hrun.symm.trans hsub))
    rcases hrep with ⟨k, ⟨x, hx, -, rfl⟩, hvalue⟩ | ⟨num, den, m', d, hlookup, -⟩
    · obtain rfl := Option.some.inj hx
      have hsame : m.val - n.val = (sexpMakeFixnum (m.val - n.val)).val := by exact_mod_cast hvalue
      rw [hsame]
      exact (sexpMakeFixnum _).range
    · simp [Heap.lookup] at hlookup
  · intro hrange
    refine Returns.of_run hrun (.inl ⟨_, ⟨_, rfl, trivial, ?_⟩, rfl⟩)
    rw [toInt_fixnum, sexpMakeFixnum_val hrange]

/-- `sexp_sub` returns the canonical representation of the exact difference on safe
operands; of two fixnums these are the ones with a fixnum difference.  The bound on the digit
arrays is that of the `int` counts of the source. -/
theorem sexpSub_canonical (flo : FlonumOps F) (depth : ℕ) :
    (∀ (h : Heap F) (m n : Fixnum),
      Returns ((arith flo (depth + 3)).sub (.fixnum m) (.fixnum n)) h
        (fun r h' => RepQ h' r ((m.val - n.val : ℤ) : ℚ)) ↔ InFixnumRange (m.val - n.val)) ∧
    ∀ (h : Heap F) (a b : Val) (p q : ℚ), RepQ h a p → RepQ h b q → h.FitsInt → SubSafe p q →
      Returns ((arith flo (depth + 3)).sub a b) h fun r h' => RepQ h' r (p - q) := by
  refine ⟨sexpSub_fixnums_iff flo depth, ?_⟩
  intro h a b p q ha hb _ hsafe
  refine (sexpSub_run flo (depth + 1) ha.holds hb.holds).mono ?_
  exact fun r h' hresult => hresult.2 p q ha hb hsafe

/-- `1/2 - 3`, which takes the row that negates its result. -/
theorem sexpSub_half :
    Returns ((arith oneFlonum 3).sub (.ptr 0) (.fixnum (sexpMakeFixnum 3)))
      [.ratio .one (.fixnum (sexpMakeFixnum 2))] (fun r h' => RepQ h' r (1 / 2 - 3)) := by
  refine (sexpSub_canonical oneFlonum 0).2 _ _ _ (1 / 2) 3 ?_ ?_ ?_ ?_
  · exact .inr ⟨.one, .fixnum (sexpMakeFixnum 2), 1, 2, rfl, ⟨_, rfl, trivial, by decide⟩,
      ⟨_, rfl, trivial, by decide⟩, by decide, by decide, by norm_num⟩
  · exact .inl ⟨3, ⟨_, rfl, trivial, by decide⟩, by norm_num⟩
  · intro bn hbn
    simp at hbn
  · have hnum : (1 / 2 : ℚ).num = 1 := by decide +kernel
    have hden : (1 / 2 : ℚ).den = 2 := by decide +kernel
    have hdiff : (3 - 1 / 2 : ℚ).num = 5 := by decide +kernel
    rw [SubSafe, if_pos (by norm_num), hnum, hden, hdiff, if_neg (by decide)]
    exact ⟨by decide, .inr (by decide), by decide, by decide⟩

/-- The bignum `2^62` and the ratio `2^62 / 3`. -/
private def thirdHeap : Heap Unit :=
  [.bignum ⟨.pos, [4611686018427387904]⟩, .ratio (.ptr 0) (.fixnum (sexpMakeFixnum 3))]

/-- `2^62 / 3 - 0` is `-2^62 / 3`: the opposite difference has the least fixnum as numerator,
which its negation leaves as it is. -/
theorem sexpSub_ratio_wraps :
    RepQ thirdHeap (.ptr 1) (2 ^ 62 / 3) ∧ RepQ thirdHeap .zero 0 ∧
      ¬ Returns ((arith oneFlonum 3).sub (.ptr 1) .zero) thirdHeap
        (fun r h' => RepQ h' r (2 ^ 62 / 3 - 0)) := by
  have hbig : ¬ InFixnumRange (Bignum.toInt ⟨.pos, [4611686018427387904]⟩) := by decide
  refine ⟨.inr ⟨_, _, 2 ^ 62, 3, rfl, ⟨_, rfl, hbig, by decide⟩, ⟨_, rfl, trivial, by decide⟩,
    by decide, by decide, by norm_num⟩, .inl ⟨0, ⟨_, rfl, trivial, by decide⟩, by norm_num⟩, ?_⟩
  have hsub : ∃ h', (arith oneFlonum 3).sub (.ptr 1) .zero thirdHeap = some (.ptr 5, h') ∧
      h'[5]? = some (.ratio (.fixnum (sexpMakeFixnum sexpMinFixnum))
        (.fixnum (sexpMakeFixnum 3))) := ⟨_, rfl, rfl⟩
  obtain ⟨h₁, hsub, hratio⟩ := hsub
  rintro ⟨r, h', hrun, hrep⟩
  obtain ⟨rfl, rfl⟩ := Prod.mk.inj (Option.some.inj (hsub.symm.trans hrun))
  rcases hrep with ⟨n, ⟨x, hx, -⟩, -⟩ | ⟨num, den, m, d, hlookup, ⟨x, hx, -, rfl⟩,
    ⟨y, hy, -, rfl⟩, -, -, hvalue⟩
  · exact absurd hratio (lookup_ne_ratio hx)
  · obtain ⟨rfl, rfl⟩ := Obj.ratio.inj (Option.some.inj (hratio.symm.trans hlookup))
    obtain rfl := Option.some.inj hx
    obtain rfl := Option.some.inj hy
    have hnum : (fixnum (sexpMakeFixnum sexpMinFixnum)).toInt = -2 ^ 62 := by decide
    have hden : (fixnum (sexpMakeFixnum 3)).toInt = 3 := by decide
    rw [hnum, hden] at hvalue
    norm_num at hvalue

end ChibiScheme
