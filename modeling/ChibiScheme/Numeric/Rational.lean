import ChibiScheme.Numeric.RatioNormalize

/-!
# Exact rationals: addition, multiplication, division

Every row of `sexp_add`, `sexp_mul` and `sexp_div` on exact rationals either is an
integer row or forms a fraction `m / d` in a new ratio object and normalizes it.
`ReducesTo` is what the second kind returns: a new number, and the canonical
representation of `m / d` if that fraction is safe to normalize.
-/

namespace ChibiScheme

open Stateful ExactInt Euclid

variable {F : Type} {h h' : Heap F} {v a b num den : Val} {x y : ExactInt} {p q : ℚ} {m d : ℤ}

/-! ## Operands -/

/-- `v` is a ratio object with contents `x / y`. -/
structure IsRatio (h : Heap F) (v num den : Val) (x y : ExactInt) : Prop where
  lookup : h.lookup v = some (.ratio num den)
  num : WideInt h num x
  den : WideInt h den y
  den_ne : y.toInt ≠ 0

/-- `v` is an integer or a ratio object that holds the fraction `m / d`. -/
inductive Holds (h : Heap F) (v : Val) : ℤ → ℤ → Prop
  | integer {x : ExactInt} (hx : WideInt h v x) : Holds h v x.toInt 1
  | ratio {num den : Val} {x y : ExactInt} (hratio : IsRatio h v num den x y) :
      Holds h v x.toInt y.toInt

/-- `v` is an exact rational as the routines of the tower need it. -/
def WideQ (h : Heap F) (v : Val) : Prop := ∃ m d, Holds h v m d

theorem IsRatio.of_extends (hextends : Extends h h') (hv : IsRatio h v num den x y) :
    IsRatio h' v num den x y :=
  ⟨lookup_of_extends hextends hv.lookup, hv.num.of_extends hextends, hv.den.of_extends hextends,
    hv.den_ne⟩

theorem Holds.of_extends (hextends : Extends h h') (hv : Holds h v m d) : Holds h' v m d := by
  cases hv with
  | integer hx => exact .integer (hx.of_extends hextends)
  | ratio hratio => exact .ratio (hratio.of_extends hextends)

theorem WideQ.of_extends (hextends : Extends h h') (hv : WideQ h v) : WideQ h' v := by
  obtain ⟨m, d, hholds⟩ := hv
  exact ⟨m, d, hholds.of_extends hextends⟩

theorem RepQ.holds (hv : RepQ h v p) : Holds h v p.num p.den := by
  rcases hv with ⟨n, hn, rfl⟩ | ⟨num, den, m, d, hlookup, hnum, hden, hd, hcoprime, rfl⟩
  · obtain ⟨x, hx, rfl⟩ := hn.wide
    simpa using Holds.integer hx
  · obtain ⟨x, hx, rfl⟩ := hnum.wide
    obtain ⟨y, hy, rfl⟩ := hden.wide
    have hpos : 0 < y.toInt := by omega
    have hvalue := Rat.num_div_eq_of_coprime hpos hcoprime
    have hvalue' := Rat.den_div_eq_of_coprime hpos hcoprime
    rw [hvalue, hvalue']
    exact .ratio ⟨hlookup, hx, hy, by omega⟩

theorem Holds.of_integer (hv : Holds h v m d) (hx : WideInt h v x) : m = x.toInt ∧ d = 1 := by
  cases hv with
  | integer hx' =>
    rw [Option.some.inj (hx'.1.symm.trans hx.1)]
    exact ⟨rfl, rfl⟩
  | ratio hratio => exact absurd hratio.lookup (lookup_ne_ratio hx.1)

theorem RepQ.holds_eq (hv : RepQ h v p) (hholds : Holds h v m d) : p.num = m ∧ (p.den : ℤ) = d := by
  cases hholds with
  | integer hx => exact hv.holds.of_integer hx
  | ratio hratio =>
    rename_i num den x y
    rcases hv with ⟨n, ⟨z, hz, -⟩, -⟩ | ⟨num', den', m, d, hlookup, ⟨xc, hxc, -, rfl⟩,
      ⟨yc, hyc, -, rfl⟩, hd, hcoprime, rfl⟩
    · exact absurd hratio.lookup (lookup_ne_ratio hz)
    have heq := hratio.lookup.symm.trans hlookup
    simp only [Option.some.injEq, Obj.ratio.injEq] at heq
    obtain ⟨rfl, rfl⟩ := heq
    obtain rfl := Option.some.inj (hxc.symm.trans hratio.num.1)
    obtain rfl := Option.some.inj (hyc.symm.trans hratio.den.1)
    exact ⟨Rat.num_div_eq_of_coprime (by omega) hcoprime,
      Rat.den_div_eq_of_coprime (by omega) hcoprime⟩

theorem RepQ.den_ne_one (hv : RepQ h v p) (hratio : IsRatio h v num den x y) : p.den ≠ 1 := by
  rcases hv with ⟨n, ⟨z, hz, -⟩, -⟩ | ⟨num', den', m, d, -, -, -, hd, hcoprime, rfl⟩
  · exact absurd hratio.lookup (lookup_ne_ratio hz)
  · have hvalue := Rat.den_div_eq_of_coprime (show 0 < d by omega) hcoprime
    omega

theorem RepQ.view (hv : RepQ h v p) :
    (∃ x, WideInt h v x ∧ x.Canonical ∧ p.num = x.toInt ∧ p.den = 1) ∨
      ∃ num den x y, IsRatio h v num den x y ∧ p.num = x.toInt ∧ (p.den : ℤ) = y.toInt := by
  have hholds := hv
  rcases hv with ⟨n, ⟨x, hx, hcanonical, rfl⟩, rfl⟩ | ⟨num, den, m, d, hlookup, hnum, hden, hd, -⟩
  · exact .inl ⟨x, ⟨hx, hcanonical.wide⟩, hcanonical, rfl, rfl⟩
  · obtain ⟨x, hx, rfl⟩ := hnum.wide
    obtain ⟨y, hy, rfl⟩ := hden.wide
    have hratio : IsRatio h v num den x y := ⟨hlookup, hx, hy, by omega⟩
    exact .inr ⟨num, den, x, y, hratio, RepQ.holds_eq hholds (.ratio hratio)⟩

/-- The value and, for a ratio, its numerator and denominator are new. -/
def DeepFresh (bound : ℕ) (h : Heap F) (v : Val) : Prop :=
  Fresh bound v ∧
    ∀ num den, h.lookup v = some (.ratio num den) → Fresh bound num ∧ Fresh bound den

/-- What a routine returns that normalizes a new ratio `m / d`. -/
structure ReducesTo (h : Heap F) (m d : ℤ) (r : Val) (h' : Heap F) : Prop where
  frame : Extends h h'
  fresh : DeepFresh h.length h' r
  wide : WideQ h' r
  value : NormalizeSafe m d → RepQ h' r (m / d)

/-! ## Normalizing a new ratio -/

theorem repInt_zero (h : Heap F) : RepInt h .zero 0 :=
  ⟨fixnum sexpZero, rfl, trivial, sexpZero_val⟩

theorem RepInt.repQ {n : ℤ} (hv : RepInt h v n) : RepQ h v n := .inl ⟨n, hv, rfl⟩

private theorem rep_of_lowest {bound addr : ℕ} {num' den' r : Val} {xc yc : ExactInt}
    (hnormalized : Normalized bound h' addr num den num' den' xc yc r) (hlowest : Lowest x y xc yc)
    (hne : y.toInt ≠ 0) (hsafe : NormalizeSafe x.toInt y.toInt) :
    RepQ h' r (x.toInt / y.toInt) := by
  obtain ⟨hcross, hpos, hcoprime⟩ := hlowest.value hsafe
  have hvalue : (x.toInt : ℚ) / y.toInt = xc.toInt / yc.toInt := by
    rw [div_eq_div_iff (by exact_mod_cast hne) (by exact_mod_cast hlowest.den_ne)]
    exact_mod_cast hcross.symm
  rw [hvalue, hnormalized.result]
  have hone := eq_one_iff hnormalized.denContents
  by_cases hden : den' = .one
  · rw [if_pos hden, hone.mp hden, toInt_fixnum, sexpOne_val, Int.cast_one, div_one]
    exact RepInt.repQ ⟨xc, hnormalized.numContents, hlowest.canonicalNum, rfl⟩
  · rw [if_neg hden]
    refine .inr ⟨num', den', xc.toInt, yc.toInt, hnormalized.ratio,
      ⟨xc, hnormalized.numContents, hlowest.canonicalNum, rfl⟩,
      ⟨yc, hnormalized.denContents, hlowest.canonicalDen, rfl⟩, ?_, hcoprime, rfl⟩
    have hne1 : yc.toInt ≠ 1 := by
      intro h1
      apply hden
      rw [hone]
      cases yc with
      | fixnum n => exact congrArg _ ((eq_sexpOne_iff n).mpr h1)
      | bignum bn =>
        refine absurd ((inFixnumRange_iff _).mpr ?_) hlowest.canonicalDen
        rw [toInt_bignum] at h1
        omega
    omega

section Tables

variable (flo : FlonumOps F) (depth : ℕ)

/-- A new ratio with contents `x / y`, normalized.  The objects that were there
before are as `normalizedHeap` has them. -/
theorem normalizeNew_run (hx : WideInt h num x) (hy : WideInt h den y) (hne : y.toInt ≠ 0) :
    Returns (do sexpRatioNormalize flo (arith flo (depth + 1)) (← sexpMakeRatio num den)) h
      fun r h' =>
        h.length ≤ h'.length ∧
          (∀ i < h.length, h'[i]? = (normalizedHeap h num den x y)[i]?) ∧
          WideQ h' r ∧ (NormalizeSafe x.toInt y.toInt → RepQ h' r (x.toInt / y.toInt)) ∧
          ∀ bound ≤ h.length, Fresh bound num → Fresh bound den → DeepFresh bound h' r := by
  let h₁ : Heap F := h ++ [.ratio num den]
  have hextends : Extends h h₁ := Extends.append h _
  have hlength : h₁.length = h.length + 1 := by simp [h₁]
  have hp : h₁[h.length]? = some (.ratio num den) := by simp [h₁]
  obtain ⟨r, h₂, hrun, hle, hframe, hresult⟩ := sexpRatioNormalize_run flo depth hp
    (hx.of_extends hextends) (hy.of_extends hextends) hne
  refine Returns.of_bind_run (show sexpMakeRatio num den h = some (.ptr h.length, h₁) from rfl) ?_
  refine Returns.of_run hrun ⟨by omega, ?_, ?_⟩
  · intro i hi
    rw [hframe i (by omega) (by omega)]
    have hsame : h₁[i]? = h[i]? := hextends.2 i hi
    unfold normalizedHeap
    split
    · rw [getElem?_flip, getElem?_flip, getElem?_flip, getElem?_flip, hsame]
    · exact hsame
  · rcases hresult with ⟨hzero, rfl⟩ | ⟨hnum, num', den', xc, yc, hnormalized, hlowest⟩
    · have hrep := repInt_zero h₂
      obtain ⟨z, hz, -⟩ := hrep.wide
      refine ⟨⟨_, _, .integer hz⟩, ?_, ?_⟩
      · intro _
        rw [hzero, Int.cast_zero, zero_div]
        exact hrep.repQ
      · intro bound _ _ _
        refine ⟨trivial, ?_⟩
        intro num den hlookup
        simp [Val.zero, Heap.lookup] at hlookup
    · have hwideNum : WideInt h₂ num' xc := ⟨hnormalized.numContents, hlowest.canonicalNum.wide⟩
      have hwideDen : WideInt h₂ den' yc := ⟨hnormalized.denContents, hlowest.canonicalDen.wide⟩
      refine ⟨?_, rep_of_lowest hnormalized hlowest hne, ?_⟩
      · rw [hnormalized.result]
        split
        · exact ⟨_, _, .integer hwideNum⟩
        · exact ⟨_, _, .ratio ⟨hnormalized.ratio, hwideNum, hwideDen, hlowest.den_ne⟩⟩
      · intro bound hbound hfreshNum hfreshDen
        have hfresh : ∀ {w w' : Val}, Fresh bound w → (w' = w ∨ Fresh h₁.length w') →
            Fresh bound w' := by
          rintro w w' hw (rfl | hw')
          · exact hw
          · exact hw'.mono (by omega)
        have hnum' := hfresh hfreshNum hnormalized.num_eq
        have hden' := hfresh hfreshDen hnormalized.den_eq
        rw [hnormalized.result]
        split
        · refine ⟨hnum', ?_⟩
          intro num den hlookup
          exact absurd hlookup (lookup_ne_ratio hnormalized.numContents)
        · refine ⟨hbound, ?_⟩
          intro num den hlookup
          have heq := hnormalized.ratio.symm.trans hlookup
          simp only [Option.some.injEq, Obj.ratio.injEq] at heq
          rw [← heq.1, ← heq.2]
          exact ⟨hnum', hden'⟩

theorem reducesTo_new {h₀ : Heap F} (hextends : Extends h₀ h) (hx : WideInt h num x)
    (hy : WideInt h den y) (hne : y.toInt ≠ 0) (hnum : Fresh h₀.length num)
    (hden : Fresh h₀.length den) :
    Returns (do sexpRatioNormalize flo (arith flo (depth + 1)) (← sexpMakeRatio num den)) h
      (ReducesTo h₀ x.toInt y.toInt) := by
  obtain ⟨r, h', hrun, hle, hframe, hwide, hvalue, hfresh⟩ := normalizeNew_run flo depth hx hy hne
  refine ⟨r, h', hrun, ⟨hextends.1.trans hle, ?_⟩, hfresh _ hextends.1 hnum hden, hwide, hvalue⟩
  intro i hi
  rw [hframe i (hi.trans_le hextends.1), ← hextends.2 i hi]
  unfold normalizedHeap
  split
  · rw [getElem?_flip, if_neg (hden.ne_ptr hi), getElem?_flip, if_neg (hnum.ne_ptr hi)]
  · rfl

/-! ## The ratio routines -/

theorem mul_run (hx : h.integer? a = some x) (hy : h.integer? b = some y) :
    Returns ((arith flo (depth + 1)).mul a b) h fun v h' =>
      Extends h h' ∧ WideInt h' v (mulInteger x y) ∧ Fresh h.length v := by
  obtain ⟨v, h', hrun, hextends, hv, hfresh⟩ := allocInt_run (mulInteger x y) h
  exact ⟨v, h', (mulTable_integer flo _ hx hy).trans hrun, hextends,
    ⟨hv, (mulInteger_spec x y).2.wide⟩, hfresh⟩

theorem add_run (hx : h.integer? a = some x) (hy : h.integer? b = some y) :
    Returns ((arith flo (depth + 1)).add a b) h fun v h' =>
      Extends h h' ∧ WideInt h' v (addInteger x y) ∧ Fresh h.length v := by
  obtain ⟨v, h', hrun, hextends, hv, hfresh⟩ := allocInt_run (addInteger x y) h
  exact ⟨v, h', (addTable_integer flo _ hx hy).trans hrun, hextends,
    ⟨hv, (addInteger_spec x y).2.wide⟩, hfresh⟩

variable {anum aden bnum bden : Val} {xa ya xb yb : ExactInt}

theorem sexpRatioAdd_run (ha : IsRatio h a anum aden xa ya) (hb : IsRatio h b bnum bden xb yb) :
    Returns (sexpRatioAdd flo (arith flo (depth + 1)) a b) h
      (ReducesTo h (xa.toInt * yb.toInt + xb.toInt * ya.toInt) (ya.toInt * yb.toInt)) := by
  refine Returns.of_bind_run (readRatio_run ha.lookup) ?_
  refine Returns.of_bind_run (readRatio_run hb.lookup) ?_
  refine (mul_run flo depth ha.num.1 hb.den.1).bind ?_
  rintro left h₁ ⟨hext₁, hleft, -⟩
  refine (mul_run flo depth (hb.num.of_extends hext₁).1 (ha.den.of_extends hext₁).1).bind ?_
  rintro right h₂ ⟨hext₂, hright, -⟩
  refine (add_run flo depth (hleft.of_extends hext₂).1 hright.1).bind ?_
  rintro num h₃ ⟨hext₃, hnum, hfreshNum⟩
  have hext₁₃ := (hext₁.trans hext₂).trans hext₃
  refine (mul_run flo depth (ha.den.of_extends hext₁₃).1 (hb.den.of_extends hext₁₃).1).bind ?_
  rintro den h₄ ⟨hext₄, hden, hfreshDen⟩
  have hle₂ := (hext₁.trans hext₂).1
  have hle₃ := hext₁₃.1
  have hreduced := reducesTo_new flo depth (hext₁₃.trans hext₄) (hnum.of_extends hext₄) hden
    (by
      rw [(mulInteger_spec _ _).1]
      exact mul_ne_zero ha.den_ne hb.den_ne)
    (hfreshNum.mono hle₂) (hfreshDen.mono hle₃)
  rwa [(addInteger_spec _ _).1, (mulInteger_spec _ _).1, (mulInteger_spec _ _).1,
    (mulInteger_spec _ _).1] at hreduced

private theorem products_run {c e f g : Val} {xc xe xf xg : ExactInt} (hc : WideInt h c xc)
    (he : WideInt h e xe) (hf : WideInt h f xf) (hg : WideInt h g xg) (hfne : xf.toInt ≠ 0)
    (hgne : xg.toInt ≠ 0) :
    Returns (do
        let num ← (arith flo (depth + 1)).mul c e
        let den ← (arith flo (depth + 1)).mul f g
        sexpRatioNormalize flo (arith flo (depth + 1)) (← sexpMakeRatio num den)) h
      (ReducesTo h (xc.toInt * xe.toInt) (xf.toInt * xg.toInt)) := by
  refine (mul_run flo depth hc.1 he.1).bind ?_
  rintro num h₁ ⟨hext₁, hnum, hfreshNum⟩
  refine (mul_run flo depth (hf.of_extends hext₁).1 (hg.of_extends hext₁).1).bind ?_
  rintro den h₂ ⟨hext₂, hden, hfreshDen⟩
  have hreduced := reducesTo_new flo depth (hext₁.trans hext₂) (hnum.of_extends hext₂) hden
    (by
      rw [(mulInteger_spec _ _).1]
      exact mul_ne_zero hfne hgne)
    hfreshNum (hfreshDen.mono hext₁.1)
  rwa [(mulInteger_spec _ _).1, (mulInteger_spec _ _).1] at hreduced

theorem sexpRatioMul_run (ha : IsRatio h a anum aden xa ya) (hb : IsRatio h b bnum bden xb yb) :
    Returns (sexpRatioMul flo (arith flo (depth + 1)) a b) h
      (ReducesTo h (xa.toInt * xb.toInt) (ya.toInt * yb.toInt)) := by
  refine Returns.of_bind_run (readRatio_run ha.lookup) ?_
  refine Returns.of_bind_run (readRatio_run hb.lookup) ?_
  exact products_run flo depth ha.num hb.num ha.den hb.den ha.den_ne hb.den_ne

theorem sexpRatioDiv_run (ha : IsRatio h a anum aden xa ya) (hb : IsRatio h b bnum bden xb yb)
    (hne : xb.toInt ≠ 0) :
    Returns (sexpRatioDiv flo (arith flo (depth + 1)) a b) h
      (ReducesTo h (xa.toInt * yb.toInt) (ya.toInt * xb.toInt)) := by
  refine Returns.of_bind_run (readRatio_run ha.lookup) ?_
  refine Returns.of_bind_run (readRatio_run hb.lookup) ?_
  exact products_run flo depth ha.num hb.den ha.den hb.num ha.den_ne hne

/-! ## The tables -/

theorem numberType_ratio (hv : h.lookup v = some (.ratio num den)) :
    numberType v h = some (.rat, h) := by
  obtain ⟨addr, rfl⟩ := Heap.ptr_of_lookup hv
  simp only [numberType, hv]

theorem wrap_isRatio (hx : WideInt h v x) :
    IsRatio (h ++ [.ratio v .one]) (.ptr h.length) v .one x (fixnum sexpOne) where
  lookup := by simp [Heap.lookup]
  num := hx.of_extends (Extends.append h _)
  den := ⟨rfl, trivial⟩
  den_ne := by simp

theorem ReducesTo.of_extends {h₁ : Heap F} {r : Val} (hextends : Extends h h₁)
    (hreduces : ReducesTo h₁ m d r h') : ReducesTo h m d r h' where
  frame := hextends.trans hreduces.frame
  fresh := ⟨hreduces.fresh.1.mono hextends.1, fun num den hlookup =>
    (hreduces.fresh.2 num den hlookup).imp (·.mono hextends.1) (·.mono hextends.1)⟩
  wide := hreduces.wide
  value := hreduces.value

theorem reducesTo_integer (hextends : Extends h h') (hx : h'.integer? v = some x)
    (hcanonical : x.Canonical) (hfresh : Fresh h.length v) : ReducesTo h x.toInt 1 v h' where
  frame := hextends
  fresh := ⟨hfresh, fun _ _ hlookup => absurd hlookup (lookup_ne_ratio hx)⟩
  wide := ⟨_, _, .integer ⟨hx, hcanonical.wide⟩⟩
  value := by
    intro _
    rw [Int.cast_one, div_one]
    exact RepInt.repQ ⟨x, hx, hcanonical, rfl⟩

private theorem wrapLeft (routine : Val → Val → NumM F Val) (hx : WideInt h a x)
    (hb : IsRatio h b bnum bden xb yb)
    (hroutine : ∀ {h₁ : Heap F} {w : Val}, IsRatio h₁ w a .one x (fixnum sexpOne) →
      IsRatio h₁ b bnum bden xb yb → Returns (routine w b) h₁ (ReducesTo h₁ m d)) :
    Returns (do routine (← sexpMakeRatio a .one) b) h (ReducesTo h m d) := by
  refine Returns.of_bind_run (show sexpMakeRatio a .one h = some (.ptr h.length, _) from rfl) ?_
  exact (hroutine (wrap_isRatio hx) (hb.of_extends (Extends.append h _))).mono
    fun _ _ hreduces => hreduces.of_extends (Extends.append h _)

private theorem wrapRight (routine : Val → Val → NumM F Val) (hx : WideInt h b x)
    (ha : IsRatio h a anum aden xa ya)
    (hroutine : ∀ {h₁ : Heap F} {w : Val}, IsRatio h₁ w b .one x (fixnum sexpOne) →
      IsRatio h₁ a anum aden xa ya → Returns (routine a w) h₁ (ReducesTo h₁ m d)) :
    Returns (do routine a (← sexpMakeRatio b .one)) h (ReducesTo h m d) := by
  refine Returns.of_bind_run (show sexpMakeRatio b .one h = some (.ptr h.length, _) from rfl) ?_
  exact (hroutine (wrap_isRatio hx) (ha.of_extends (Extends.append h _))).mono
    fun _ _ hreduces => hreduces.of_extends (Extends.append h _)

variable {m' d' : ℤ}

theorem sexpAdd_run (ha : Holds h a m d) (hb : Holds h b m' d') :
    Returns ((arith flo (depth + 2)).add a b) h (ReducesTo h (m * d' + m' * d) (d * d')) := by
  cases ha with
  | integer hx =>
    rename_i x
    cases hb with
    | integer hy =>
      rename_i y
      obtain ⟨v, h', hrun, hextends, hv, hfresh⟩ := allocInt_run (addInteger x y) h
      refine ⟨v, h', (addTable_integer flo _ hx.1 hy.1).trans hrun, ?_⟩
      have hspec := addInteger_spec x y
      have hreduces := reducesTo_integer hextends hv hspec.2 hfresh
      rwa [hspec.1, ← mul_one x.toInt, ← mul_one y.toInt] at hreduces
    | ratio hratio =>
      rename_i bnum bden xb yb
      have hwrapped := wrapLeft (m := x.toInt * yb.toInt + xb.toInt * 1) (d := 1 * yb.toInt)
        (sexpRatioAdd flo (arith flo (depth + 1))) hx hratio fun hw hr => by
          have hrun := sexpRatioAdd_run flo depth hw hr
          rwa [toInt_fixnum, sexpOne_val] at hrun
      refine Returns.of_bind_run (numberType_integer hx.1) ?_
      refine Returns.of_bind_run (numberType_ratio hratio.lookup) ?_
      cases x <;> exact hwrapped
  | ratio hratio =>
    rename_i anum aden xa ya
    cases hb with
    | integer hy =>
      rename_i y
      have hwrapped := wrapLeft (m := y.toInt * ya.toInt + xa.toInt * 1) (d := 1 * ya.toInt)
        (sexpRatioAdd flo (arith flo (depth + 1))) hy hratio fun hw hr => by
          have hrun := sexpRatioAdd_run flo depth hw hr
          rwa [toInt_fixnum, sexpOne_val] at hrun
      rw [add_comm (xa.toInt * 1), mul_comm ya.toInt]
      refine Returns.of_bind_run (numberType_ratio hratio.lookup) ?_
      refine Returns.of_bind_run (numberType_integer hy.1) ?_
      cases y <;> exact hwrapped
    | ratio hratio' =>
      refine Returns.of_bind_run (numberType_ratio hratio.lookup) ?_
      refine Returns.of_bind_run (numberType_ratio hratio'.lookup) ?_
      exact sexpRatioAdd_run flo depth hratio hratio'

theorem sexpMul_run (ha : Holds h a m d) (hb : Holds h b m' d') :
    Returns ((arith flo (depth + 2)).mul a b) h (ReducesTo h (m * m') (d * d')) := by
  cases ha with
  | integer hx =>
    rename_i x
    cases hb with
    | integer hy =>
      rename_i y
      obtain ⟨v, h', hrun, hextends, hv, hfresh⟩ := allocInt_run (mulInteger x y) h
      refine ⟨v, h', (mulTable_integer flo _ hx.1 hy.1).trans hrun, ?_⟩
      have hspec := mulInteger_spec x y
      have hreduces := reducesTo_integer hextends hv hspec.2 hfresh
      rwa [hspec.1] at hreduces
    | ratio hratio =>
      rename_i bnum bden xb yb
      have hwrapped := wrapLeft (m := x.toInt * xb.toInt) (d := 1 * yb.toInt)
        (sexpRatioMul flo (arith flo (depth + 1))) hx hratio fun hw hr => by
          have hrun := sexpRatioMul_run flo depth hw hr
          rwa [toInt_fixnum, sexpOne_val] at hrun
      refine Returns.of_bind_run (numberType_integer hx.1) ?_
      refine Returns.of_bind_run (numberType_ratio hratio.lookup) ?_
      cases x <;> exact hwrapped
  | ratio hratio =>
    rename_i anum aden xa ya
    cases hb with
    | integer hy =>
      rename_i y
      have hwrapped := wrapLeft (m := y.toInt * xa.toInt) (d := 1 * ya.toInt)
        (sexpRatioMul flo (arith flo (depth + 1))) hy hratio fun hw hr => by
          have hrun := sexpRatioMul_run flo depth hw hr
          rwa [toInt_fixnum, sexpOne_val] at hrun
      rw [mul_comm, mul_comm ya.toInt]
      refine Returns.of_bind_run (numberType_ratio hratio.lookup) ?_
      refine Returns.of_bind_run (numberType_integer hy.1) ?_
      cases y <;> exact hwrapped
    | ratio hratio' =>
      refine Returns.of_bind_run (numberType_ratio hratio.lookup) ?_
      refine Returns.of_bind_run (numberType_ratio hratio'.lookup) ?_
      exact sexpRatioMul_run flo depth hratio hratio'

theorem divTable_integer (hx : h.integer? a = some x) (hy : h.integer? b = some y) :
    (arith flo (depth + 2)).div a b h =
      (do sexpRatioNormalize flo (arith flo (depth + 1)) (← sexpMakeRatio a b) : NumM F Val) h := by
  show divTable flo (arith flo (depth + 1)) a b h = _
  unfold divTable
  rw [bind_run (numberType_integer hx), bind_run (numberType_integer hy)]
  cases x <;> cases y <;> rfl

theorem sexpDiv_ratio_run (ha : Holds h a m d) (hb : Holds h b m' d') (hne : m' ≠ 0)
    (hratio : ¬ ((∃ x, WideInt h a x) ∧ ∃ y, WideInt h b y)) :
    Returns ((arith flo (depth + 2)).div a b) h (ReducesTo h (m * d') (d * m')) := by
  cases ha with
  | integer hx =>
    rename_i x
    cases hb with
    | integer hy => exact absurd ⟨⟨_, hx⟩, ⟨_, hy⟩⟩ hratio
    | ratio hb =>
      rename_i bnum bden xb yb
      have hwrapped := wrapLeft (m := x.toInt * yb.toInt) (d := 1 * xb.toInt)
        (sexpRatioDiv flo (arith flo (depth + 1))) hx hb fun hw hr => by
          have hrun := sexpRatioDiv_run flo depth hw hr hne
          rwa [toInt_fixnum, sexpOne_val] at hrun
      refine Returns.of_bind_run (numberType_integer hx.1) ?_
      refine Returns.of_bind_run (numberType_ratio hb.lookup) ?_
      cases x <;> exact hwrapped
  | ratio ha =>
    rename_i anum aden xa ya
    cases hb with
    | integer hy =>
      rename_i y
      have hwrapped := wrapRight (m := xa.toInt * 1) (d := ya.toInt * y.toInt)
        (sexpRatioDiv flo (arith flo (depth + 1))) hy ha fun hw hr => by
          have hrun := sexpRatioDiv_run flo depth hr hw hne
          rwa [toInt_fixnum, sexpOne_val] at hrun
      refine Returns.of_bind_run (numberType_ratio ha.lookup) ?_
      refine Returns.of_bind_run (numberType_integer hy.1) ?_
      cases y <;> exact hwrapped
    | ratio hb =>
      refine Returns.of_bind_run (numberType_ratio ha.lookup) ?_
      refine Returns.of_bind_run (numberType_ratio hb.lookup) ?_
      exact sexpRatioDiv_run flo depth ha hb hne

end Tables

/-! ## Canonical results -/

/-- `sexp_add`, `sexp_mul` and `sexp_div` return the canonical representation of
the exact result, if the fraction they form is safe to normalize.  The bound on the digit
arrays is that of the `int` counts of the source. -/
theorem sexpAdd_sexpMul_sexpDiv_canonical (flo : FlonumOps F) (depth : ℕ) (ha : RepQ h a p)
    (hb : RepQ h b q) (_hfits : h.FitsInt) :
    (NormalizeSafe (p.num * q.den + q.num * p.den) (p.den * q.den) →
      Returns ((arith flo (depth + 3)).add a b) h fun r h' => RepQ h' r (p + q)) ∧
    (NormalizeSafe (p.num * q.num) (p.den * q.den) →
      Returns ((arith flo (depth + 3)).mul a b) h fun r h' => RepQ h' r (p * q)) ∧
    (q ≠ 0 → NormalizeSafe (p.num * q.den) (p.den * q.num) →
      Returns ((arith flo (depth + 3)).div a b) h fun r h' => RepQ h' r (p / q)) := by
  have hp : (p.den : ℚ) ≠ 0 := by exact_mod_cast p.den_ne_zero
  have hq : (q.den : ℚ) ≠ 0 := by exact_mod_cast q.den_ne_zero
  refine ⟨?_, ?_, ?_⟩
  · intro hsafe
    refine (sexpAdd_run flo (depth + 1) ha.holds hb.holds).mono fun r h' hreduces => ?_
    have hvalue : p + q = ((p.num * q.den + q.num * p.den : ℤ) : ℚ) / ((p.den * q.den : ℤ) : ℚ) := by
      push_cast
      rw [mul_comm (q.num : ℚ), ← div_add_div _ _ hp hq, p.num_div_den, q.num_div_den]
    rw [hvalue]
    exact hreduces.value hsafe
  · intro hsafe
    refine (sexpMul_run flo (depth + 1) ha.holds hb.holds).mono fun r h' hreduces => ?_
    have hvalue : p * q = ((p.num * q.num : ℤ) : ℚ) / ((p.den * q.den : ℤ) : ℚ) := by
      push_cast
      rw [← div_mul_div_comm, p.num_div_den, q.num_div_den]
    rw [hvalue]
    exact hreduces.value hsafe
  · intro hne hsafe
    have hvalue : p / q = ((p.num * q.den : ℤ) : ℚ) / ((p.den * q.num : ℤ) : ℚ) := by
      push_cast
      rw [← div_div_div_eq, p.num_div_den, q.num_div_den]
    have hnum : q.num ≠ 0 := Rat.num_ne_zero.mpr hne
    rw [hvalue]
    -- two integers are divided by another row of the table
    by_cases hintegers : (∃ x, WideInt h a x) ∧ ∃ y, WideInt h b y
    · obtain ⟨⟨x, hx⟩, ⟨y, hy⟩⟩ := hintegers
      obtain ⟨hxp, hpden⟩ := ha.holds.of_integer hx
      obtain ⟨hyq, hqden⟩ := hb.holds.of_integer hy
      rw [hxp, hpden, hyq, hqden, mul_one, one_mul] at hsafe ⊢
      obtain ⟨r, h', hrun, -, -, -, hrep, -⟩ :=
        normalizeNew_run flo (depth + 1) hx hy (by rwa [← hyq])
      exact ⟨r, h', (divTable_integer flo (depth + 1) hx.1 hy.1).trans hrun, hrep hsafe⟩
    · refine (sexpDiv_ratio_run flo (depth + 1) ha.holds hb.holds hnum hintegers).mono ?_
      exact fun r h' hreduces => hreduces.value hsafe

/-- Floating point with a single number; the rows on exact rationals do not look at
it. -/
def oneFlonum : FlonumOps Unit where
  ofFixnum _ := ()
  ofBignum _ := ()
  ofRatio _ _ := ()
  add _ _ := ()
  sub _ _ := ()
  mul _ _ := ()
  div _ _ := ()
  neg _ := ()
  lt _ _ := false
  eq _ _ := true
  zero := ()
  isinf _ := false
  isnan _ := false
  trunc _ := ()
  toBignum _ := sexpMakeBignum 1
  toExact _ := (fixnum sexpZero, fixnum sexpOne)

/-- The ratio `1/2` and the integer `3` at their addresses. -/
theorem sexpAdd_sexpMul_sexpDiv_half :
    Returns ((arith oneFlonum 3).add (.ptr 0) (.fixnum (sexpMakeFixnum 3)))
        [.ratio .one (.fixnum (sexpMakeFixnum 2))] (fun r h' => RepQ h' r (1 / 2 + 3)) ∧
      Returns ((arith oneFlonum 3).mul (.ptr 0) (.fixnum (sexpMakeFixnum 3)))
        [.ratio .one (.fixnum (sexpMakeFixnum 2))] (fun r h' => RepQ h' r (1 / 2 * 3)) ∧
      Returns ((arith oneFlonum 3).div (.ptr 0) (.fixnum (sexpMakeFixnum 3)))
        [.ratio .one (.fixnum (sexpMakeFixnum 2))] (fun r h' => RepQ h' r (1 / 2 / 3)) := by
  have hhalf : RepQ [(.ratio .one (.fixnum (sexpMakeFixnum 2)) : Obj Unit)] (.ptr 0) (1 / 2) :=
    .inr ⟨.one, .fixnum (sexpMakeFixnum 2), 1, 2, rfl, ⟨_, rfl, trivial, by decide⟩,
      ⟨_, rfl, trivial, by decide⟩, by decide, by decide, by norm_num⟩
  have hthree : RepQ [(.ratio .one (.fixnum (sexpMakeFixnum 2)) : Obj Unit)]
      (.fixnum (sexpMakeFixnum 3)) 3 :=
    .inl ⟨3, ⟨_, rfl, trivial, by decide⟩, by norm_num⟩
  have hfits : Heap.FitsInt [(.ratio .one (.fixnum (sexpMakeFixnum 2)) : Obj Unit)] := by
    intro bn hbn
    simp at hbn
  obtain ⟨hadd, hmul, hdiv⟩ := sexpAdd_sexpMul_sexpDiv_canonical oneFlonum 0 hhalf hthree hfits
  have hnum : (1 / 2 : ℚ).num = 1 := by decide +kernel
  have hden : (1 / 2 : ℚ).den = 2 := by decide +kernel
  have hnum3 : (3 : ℚ).num = 3 := by norm_num
  have hden3 : (3 : ℚ).den = 1 := by norm_num
  rw [hnum, hden, hnum3, hden3] at hadd hmul hdiv
  exact ⟨hadd (.inr (by decide)), hmul (.inr (by decide)),
    hdiv (by norm_num) (.inr (by decide))⟩

/-- The most significant digit is not zero. -/
def Bignum.NoLeadingZero (b : Bignum) : Prop := b.data.getLast? ≠ some 0

instance (b : Bignum) : Decidable b.NoLeadingZero :=
  inferInstanceAs (Decidable (b.data.getLast? ≠ some 0))

/-- The sum of `2^128` and `-(2^128 - 2^64)` keeps a leading zero digit: the routines
look for the highest digit where they need it and do not shorten the array. -/
theorem sexpAdd_leading_zero :
    ∃ x y z : Bignum, x.NoLeadingZero ∧ y.NoLeadingZero ∧ ¬ z.NoLeadingZero ∧
      RepQ [(.bignum x : Obj Unit), .bignum y] (.ptr 0) (2 ^ 128) ∧
      RepQ [(.bignum x : Obj Unit), .bignum y] (.ptr 1) (2 ^ 64 - 2 ^ 128) ∧
      (arith oneFlonum 3).add (.ptr 0) (.ptr 1) [.bignum x, .bignum y] =
        some (.ptr 2, [.bignum x, .bignum y, .bignum z]) := by
  refine ⟨⟨.pos, [0, 0, 1]⟩, ⟨.neg, [0, 18446744073709551615]⟩, ⟨.pos, [0, 1, 0]⟩, by decide,
    by decide, fun hlast => hlast rfl, ?_, ?_, rfl⟩
  · refine .inl ⟨2 ^ 128, ⟨_, rfl, ?_, by decide⟩, by norm_num⟩
    exact (by decide : ¬ InFixnumRange (Bignum.toInt ⟨.pos, [0, 0, 1]⟩))
  · refine .inl ⟨2 ^ 64 - 2 ^ 128, ⟨_, rfl, ?_, by decide⟩, by norm_num⟩
    exact (by decide : ¬ InFixnumRange (Bignum.toInt ⟨.neg, [0, 18446744073709551615]⟩))

end ChibiScheme
