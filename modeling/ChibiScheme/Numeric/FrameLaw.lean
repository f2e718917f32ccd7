import ChibiScheme.Numeric.FrameRows

/-!
# The frame law of the tower

For every operation and every pair of exact operands, the exact condition under
which the call leaves all numbers in the heap as they were.

A subtraction of complex numbers negates the parts of one operand where they are,
before the sum is formed.  An object that both parts lead to is negated twice and
keeps its number; otherwise some number in the heap has changed its sign.
-/

namespace ChibiScheme

open Stateful ExactInt Option

variable {F : Type} {h h' : Heap F} {v a b : Val} {x y : ExactInt} {p q : ℚ}

/-! ## Subtraction of complex numbers -/

theorem sexpFxNeg_sexpFxNeg (n : Fixnum) : sexpFxNeg (sexpFxNeg n) = n := by
  by_cases hmin : n.val = -2 ^ 62
  · rw [sexpFxNeg_min hmin, sexpFxNeg_min hmin]
  · have hbounds := n.bounds
    have hval := sexpFxNeg_val n hmin
    apply Fixnum.ext
    rw [sexpFxNeg_val _ (by omega), hval, neg_neg]

theorem RepQ.signCell_object (hv : RepQ h v q) {i : ℕ} (hi : signCell h v = some i) :
    (∃ bn, h[i]? = some (.bignum bn)) ∨
      ∃ n den, h[i]? = some (.ratio (.fixnum n) den) ∧ n.val ≠ -2 ^ 62 := by
  rcases hv with ⟨n, ⟨x, hx, -⟩, -⟩ | ⟨num, den, m, d, hlookup, ⟨x, hx, -⟩, -⟩
  · cases x with
    | fixnum n =>
      rw [integer?_eq_some_fixnum_iff] at hx
      simp [hx, signCell] at hi
    | bignum bn =>
      rw [integer?_eq_some_bignum_iff] at hx
      obtain ⟨addr, rfl⟩ := Heap.ptr_of_lookup hx
      have hobject : h[addr]? = some (.bignum bn) := hx
      simp only [signCell, hobject, Option.some.injEq] at hi
      exact .inl ⟨bn, hi ▸ hobject⟩
  · obtain ⟨addr, rfl⟩ := Heap.ptr_of_lookup hlookup
    have hobject : h[addr]? = some (.ratio num den) := hlookup
    cases x with
    | fixnum n =>
      obtain rfl := integer?_eq_some_fixnum_iff.mp hx
      simp only [signCell, hobject] at hi
      split at hi
      · simp at hi
      · rename_i hmin
        obtain rfl := some.inj hi
        refine .inr ⟨n, den, hobject, ?_⟩
        intro hval
        exact hmin (Fixnum.ext (hval.trans (by decide)))
    | bignum bn =>
      rw [integer?_eq_some_bignum_iff] at hx
      obtain ⟨j, rfl⟩ := Heap.ptr_of_lookup hx
      simp only [signCell, hobject, Option.some.injEq] at hi
      exact .inl ⟨bn, hi ▸ hx⟩

section Effect

variable (flo : FlonumOps F) {k : ℕ} {real imag : Val}

theorem negateCell_negateCell {object : Obj F} (hexact : ∀ z, object ≠ .flonum z) :
    negateCell flo (negateCell flo object) = object := by
  cases object with
  | flonum z => exact absurd rfl (hexact z)
  | bignum bn => simp [negateCell]
  | complex real imag => rfl
  | ratio num den =>
    cases num with
    | fixnum n => simp [negateCell, sexpFxNeg_sexpFxNeg]
    | _ => rfl

theorem applyNegation_comm (s t : Option ℕ) (i : ℕ) (object : Option (Obj F)) :
    applyNegation flo s i (applyNegation flo t i object) =
      applyNegation flo t i (applyNegation flo s i object) := by
  unfold applyNegation
  split <;> split <;> rfl

private theorem not_sameNumbers_of_once (hwell : h.WellFormed) {s t : Option ℕ}
    (hk : h[k]? = some (.complex real imag))
    (hframe : ∀ i < h.length, i ≠ k →
      h'[i]? = applyNegation flo t i (applyNegation flo s i h[i]?))
    {i : ℕ} (hs : s = some i) (ht : t ≠ some i)
    (hobject : (∃ bn, h[i]? = some (.bignum bn)) ∨
      ∃ n den, h[i]? = some (.ratio (.fixnum n) den) ∧ n.val ≠ -2 ^ 62) :
    ¬ SameNumbers h h' := by
  intro hsame
  have hchanged : ∀ {object : Obj F}, h[i]? = some object → (∀ re im, object ≠ .complex re im) →
      h'[i]? = some (negateCell flo object) := by
    intro object hi hnot
    have hik : i ≠ k := by
      rintro rfl
      exact hnot _ _ (some.inj (hi.symm.trans hk))
    rw [hframe i (List.getElem?_eq_some_iff.mp hi).1 hik, applyNegation_of_ne flo ht, applyNegation,
      if_pos hs, hi]
    rfl
  rcases hobject with ⟨bn, hbn⟩ | ⟨n, den, hratio, hmin⟩
  · exact number?_negate_ne hbn (hwell i _ hbn) (hchanged hbn (by simp))
      (hsame i (List.getElem?_eq_some_iff.mp hbn).1)
  · obtain ⟨q, num, den', m, d, hlookup, ⟨x, hx, -, rfl⟩, ⟨y, hy, hcanonical, rfl⟩, hd, hcoprime,
      rfl⟩ := hwell i _ hratio
    have heq := hlookup.symm.trans hratio
    simp only [Option.some.injEq, Obj.ratio.injEq] at heq
    obtain ⟨rfl, rfl⟩ := heq
    obtain rfl : x = fixnum n := some.inj (hx.symm.trans rfl)
    have hratio' := hchanged hratio (by simp)
    -- the denominator is left alone, or is a bignum that has been negated once
    have hden : h'.integer? den' = some y := by
      cases y with
      | fixnum e =>
        rw [integer?_eq_some_fixnum_iff] at hy ⊢
        exact hy
      | bignum bn =>
        rw [integer?_eq_some_bignum_iff] at hy ⊢
        obtain ⟨j, rfl⟩ := Heap.ptr_of_lookup hy
        have hbn : h[j]? = some (.bignum bn) := hy
        have hjlt := (List.getElem?_eq_some_iff.mp hbn).1
        have hjk : j ≠ k := by
          rintro rfl
          simp [hbn] at hk
        have hji : s ≠ some j := by
          rintro hsj
          obtain rfl := some.inj (hs.symm.trans hsj)
          simp [hbn] at hratio
        have hj := hframe j hjlt hjk
        rw [applyNegation_of_ne flo hji, hbn] at hj
        by_cases htj : t = some j
        · rw [applyNegation, if_pos htj] at hj
          exact absurd (hsame j hjlt) (number?_negate_ne hbn (hwell j _ hbn) hj)
        · rw [applyNegation_of_ne flo htj] at hj
          exact hj
    have hnumber : ∀ {g : Heap F} {c : Fixnum}, g[i]? = some (.ratio (.fixnum c) den') →
        g.integer? den' = some y →
        g.number? (.ptr i) = some (.scalar (.exact (c.val / y.toInt))) := by
      intro g c hc hy
      have hlookup : g.lookup (.ptr i) = some (.ratio (.fixnum c) den') := hc
      have hscalar := scalar?_of_ratio (x := fixnum c) hlookup rfl hy
      simp only [Heap.number?, hlookup, hscalar]
      rfl
    have hdenotes := hsame i (List.getElem?_eq_some_iff.mp hratio).1
    rw [hnumber hratio' hden, hnumber hratio hy] at hdenotes
    simp only [Option.some.injEq, Number.scalar.injEq, Scalar.exact.injEq] at hdenotes
    have hdne : (y.toInt : ℚ) ≠ 0 := by exact_mod_cast (by omega : y.toInt ≠ 0)
    rw [div_left_inj' hdne, Int.cast_inj, sexpFxNeg_val n hmin] at hdenotes
    have hzero : n.val = 0 := by omega
    rw [toInt_fixnum, hzero, Int.gcd_zero_left] at hcoprime
    omega

theorem CopyOf.scalar_eq {v' : Val} (hagree : AgreeOnReals h h') (hcopy : CopyOf h h' v v')
    (hv : RealPart h v) : h'.scalar? v' = h.scalar? v := by
  rcases hcopy with rfl | ⟨object, hobject, hobject', -, ⟨z, rfl⟩ | ⟨bn, rfl⟩⟩
  · exact hv.scalar_eq hagree
  · rw [scalar?_of_flonum hobject, scalar?_of_flonum hobject']
  · rw [scalar?_of_integer (integer?_eq_some_bignum_iff.mpr hobject),
      scalar?_of_integer (integer?_eq_some_bignum_iff.mpr hobject')]

/-- A subtraction that negates the parts of the complex number at `k` keeps every
number exactly when both parts lead to the same object, or to none. -/
theorem SubEffect.sameNumbers_iff (hwell : h.WellFormed) (hk : h[k]? = some (.complex real imag))
    (hreal : RepQ h real p) (himag : RepQ h imag q)
    (heffect : SubEffect flo h.length h h' k real imag) :
    SameNumbers h h' ↔ signCell h real = signCell h imag := by
  constructor
  · intro hsame
    by_contra hne
    have hsome : (∃ i, signCell h real = some i ∧ signCell h imag ≠ some i) ∨
        ∃ i, signCell h imag = some i ∧ signCell h real ≠ some i := by
      cases hr : signCell h real with
      | none =>
        cases hi : signCell h imag with
        | none => exact absurd (hr.trans hi.symm) hne
        | some i => exact .inr ⟨i, rfl, by simp⟩
      | some i =>
        refine .inl ⟨i, rfl, ?_⟩
        intro hi
        exact hne (hr.trans hi.symm)
    rcases hsome with ⟨i, hs, ht⟩ | ⟨i, hs, ht⟩
    · exact not_sameNumbers_of_once flo hwell hk heffect.frame hs ht (hreal.signCell_object hs) hsame
    · refine not_sameNumbers_of_once flo hwell hk ?_ hs ht (himag.signCell_object hs) hsame
      intro i hi hik
      rw [heffect.frame i hi hik, applyNegation_comm]
  · intro hcells
    have hframe : ∀ i < h.length, i ≠ k → h'[i]? = h[i]? := by
      intro i hi hik
      rw [heffect.frame i hi hik, ← hcells]
      by_cases htarget : signCell h real = some i
      · rw [applyNegation, applyNegation, if_pos htarget, if_pos htarget, map_map]
        rcases hreal.signCell_object htarget with ⟨bn, hbn⟩ | ⟨n, den, hratio, -⟩
        · rw [hbn]
          exact congrArg some (negateCell_negateCell flo (by simp))
        · rw [hratio]
          exact congrArg some (negateCell_negateCell flo (by simp))
      · rw [applyNegation_of_ne flo htarget, applyNegation_of_ne flo htarget]
    have hagree : AgreeOnReals h h' := by
      intro i object hobject hnot
      rw [hframe i (List.getElem?_eq_some_iff.mp hobject).1, hobject]
      rintro rfl
      exact hnot _ _ (some.inj (hobject.symm.trans hk))
    intro i hi
    obtain ⟨object, hobject⟩ : ∃ object, h[i]? = some object := ⟨h[i], List.getElem?_eq_getElem hi⟩
    by_cases hcomplex : ∃ re im, object = .complex re im
    · obtain ⟨re, im, rfl⟩ := hcomplex
      obtain ⟨hre, him⟩ := hwell i _ hobject
      obtain ⟨r, hr⟩ := hre.exists_scalar
      obtain ⟨s, hs⟩ := him.exists_scalar
      rw [number?_of_complex (v := .ptr i) hobject hr hs]
      by_cases hik : i = k
      · subst hik
        obtain ⟨real', imag', hoperand, hcopyR, hcopyI⟩ := heffect.operand
        have heq := hobject.symm.trans hk
        simp only [Option.some.injEq, Obj.complex.injEq] at heq
        obtain ⟨rfl, rfl⟩ := heq
        exact number?_of_complex (v := .ptr i) hoperand ((hcopyR.scalar_eq hagree hre).trans hr)
          ((hcopyI.scalar_eq hagree him).trans hs)
      · exact number?_of_complex (v := .ptr i) ((hframe i hi hik).trans hobject)
          ((hre.scalar_eq hagree).trans hr) ((him.scalar_eq hagree).trans hs)
    · refine number?_eq_of_agree hwell hagree hobject ?_
      intro re im heq
      exact hcomplex ⟨re, im, heq⟩

end Effect

section Law

variable (flo : FlonumOps F) (depth : ℕ) {k : ℕ} {real imag : Val}

/-- The rows of `sexp_sub` that make the other operand complex: its address is new,
so the effect is that on the heap before. -/
private theorem subWrapped_run {h₁ : Heap F} {c re im : Val} (hext : Extends h h₁)
    (hc : IsComplex h.length h₁ c re im) (hk : h[k]? = some (.complex real imag))
    (hreal : WideQ h real) (himag : WideQ h imag) (negatep : Bool) :
    Returns (subComplex flo (arith flo (depth + 2)) c (.ptr k) negatep) h₁ fun _ h' =>
      SubEffect flo h.length h h' k real imag := by
  have hlt := (List.getElem?_eq_some_iff.mp hk).1
  refine (subComplex_run flo depth hc ((hext.2 k hlt).trans hk) (hreal.of_extends hext)
    (himag.of_extends hext) hext.1 hlt negatep).mono ?_
  exact fun _ _ heffect => heffect.of_extends flo hext hreal himag

private theorem subReal_run (hv : WideQ h v) (hk : h[k]? = some (.complex real imag))
    (hreal : WideQ h real) (himag : WideQ h imag) (negatep : Bool) :
    Returns (do subComplex flo (arith flo (depth + 2)) (← sexpMakeComplex v .zero) (.ptr k) negatep)
      h fun _ h' => SubEffect flo h.length h h' k real imag := by
  have hmake : sexpMakeComplex v .zero h = some (.ptr h.length, h ++ [.complex v .zero]) := rfl
  refine Returns.of_bind_run hmake ?_
  exact subWrapped_run flo depth (Extends.append h _) (wrap_isComplex (.exact hv)) hk hreal himag
    negatep

theorem subComplex_effect (ha : ExactNumber h a) (hk : h[k]? = some (.complex real imag))
    (hreal : WideQ h real) (himag : WideQ h imag)
    (hratio : ∀ num den, h.lookup a ≠ some (.ratio num den)) :
    Returns ((arith flo (depth + 3)).sub a (.ptr k)) h fun _ h' =>
      SubEffect flo h.length h h' k real imag := by
  have htk : numberType (.ptr k) h = some (.cpx, h) := numberType_complex (v := .ptr k) hk
  rcases ha.operand with hwa | ⟨areal, aimag, hla, hra, hia⟩
  · have hrow := subReal_run flo depth hwa hk hreal himag false
    obtain ⟨m, d, hholds⟩ := hwa
    cases hholds with
    | integer hx =>
      rename_i x
      refine Returns.of_bind_run (numberType_integer hx.1) (Returns.of_bind_run htk ?_)
      cases x <;> exact hrow
    | ratio hr => exact absurd hr.lookup (hratio _ _)
  · refine Returns.of_bind_run (numberType_complex hla) (Returns.of_bind_run htk ?_)
    exact subWrapped_run flo depth (Extends.refl h) ⟨hla, .exact hra, .exact hia⟩ hk hreal himag
      false

theorem complexSub_effect (hb : WideQ h b) (hk : h[k]? = some (.complex real imag))
    (hreal : WideQ h real) (himag : WideQ h imag) :
    Returns ((arith flo (depth + 3)).sub (.ptr k) b) h fun _ h' =>
      SubEffect flo h.length h h' k real imag := by
  have htk : numberType (.ptr k) h = some (.cpx, h) := numberType_complex (v := .ptr k) hk
  obtain ⟨type, htb, htype⟩ := hb.numberType
  have hrow := subReal_run flo depth hb hk hreal himag true
  refine Returns.of_bind_run htk (Returns.of_bind_run htb ?_)
  cases htype with
  | fix => exact hrow
  | big => exact hrow
  | rat =>
    have hck : IsComplex h.length h (.ptr k) real imag := ⟨hk, .exact hreal, .exact himag⟩
    obtain ⟨z, hz, hext, hflonum, -⟩ := wrapFlonum flo hb hck
    refine Returns.of_bind_run hz (Returns.of_bind_run rfl (Returns.of_bind_run rfl ?_))
    exact subWrapped_run flo depth hext hflonum hk hreal himag true

theorem ratioSub_complex (hk : h[k]? = some (.complex real imag)) (hreal : WideQ h real)
    (himag : WideQ h imag) (ha : WideQ h a) {num den : Val}
    (hratio : h.lookup a = some (.ratio num den)) :
    (arith flo (depth + 3)).sub a (.ptr k) h = none := by
  have htk : numberType (.ptr k) h = some (.cpx, h) := numberType_complex (v := .ptr k) hk
  obtain ⟨z, hz⟩ := sexpToDouble_run flo (.exact ha : Real 0 h a)
  refine (bind_run (numberType_ratio hratio)).trans ((bind_run htk).trans ?_)
  refine (bind_run hz).trans ?_
  have hext : Extends h (h ++ [.flonum z]) := Extends.append h _
  have hlt := (List.getElem?_eq_some_iff.mp hk).1
  -- the copy and the negation go through, the sum does not
  have hk₁ := (hext.2 k hlt).trans hk
  have hcomplex : IsComplex 0 (h ++ [.flonum z]) (.ptr k) real imag :=
    ⟨hk₁, .exact (hreal.of_extends hext), .exact (himag.of_extends hext)⟩
  obtain ⟨tmp, h₁, hcopy, rfl, real', imag', hcopied⟩ := sexpComplexCopy_run hcomplex
  have hpres₁ : Preserves 0 (h ++ [.flonum z]) h₁ := hcopied.preserves hk₁ (Nat.zero_le k)
  obtain ⟨_, h₂, hnegate, hpres₂, -⟩ := negateParts_run flo hcopied.copy
    (hcomplex.real.of_preserves hpres₁) (hcomplex.imag.of_preserves hpres₁)
  obtain ⟨object, hobject, hshape⟩ := (hpres₁.trans hpres₂).shape h.length (.flonum z) (by simp)
  have hread : readComplex (.ptr h.length) h₂ = none := by
    have hobj : readObj (.ptr h.length) h₂ = some (object, h₂) := by
      show (h₂[h.length]?).map _ = _
      rw [hobject]
      rfl
    refine (bind_run hobj).trans ?_
    cases object with
    | complex re im => exact hshape.elim
    | _ => rfl
  refine (bind_run (show sexpMakeFlonum z h = some (.ptr h.length, h ++ [.flonum z]) from rfl)).trans ?_
  refine bind_none ?_
  refine (bind_run hcopy).trans ((bind_run hnegate).trans ?_)
  exact bind_none hread

/-! ## Division of integers -/

private theorem sameNumbers_flips (hwell : h.WellFormed) (hlength : h.length ≤ h'.length)
    (hx : h.integer? a = some x) (hy : h.integer? b = some y)
    (hframe : ∀ i < h.length, h'[i]? = ((h.flip a).flip b)[i]?) :
    SameNumbers h h' ↔ a = b ∨ (∃ m, a = .fixnum m) ∧ ∃ n, b = .fixnum n := by
  have hflipped : ∀ {i : ℕ} {bn : Bignum}, h[i]? = some (.bignum bn) →
      h'[i]? = some (.bignum bn.negate) → ¬ SameNumbers h h' := by
    intro i bn hbn hbn' hsame
    exact number?_negate_ne hbn (hwell i _ hbn) hbn' (hsame i (List.getElem?_eq_some_iff.mp hbn).1)
  have hobject : ∀ {v : Val} {z : ExactInt}, h.integer? v = some z → (∀ n, v ≠ .fixnum n) →
      ∃ i bn, v = .ptr i ∧ h[i]? = some (.bignum bn) := by
    intro v z hz hnot
    cases z with
    | fixnum n => exact absurd (integer?_eq_some_fixnum_iff.mp hz) (hnot n)
    | bignum bn =>
      rw [integer?_eq_some_bignum_iff] at hz
      obtain ⟨i, rfl⟩ := Heap.ptr_of_lookup hz
      exact ⟨i, bn, rfl, hz⟩
  constructor
  · intro hsame
    by_contra hnot
    rw [not_or] at hnot
    obtain ⟨hne, hfixnums⟩ := hnot
    by_cases hfix : ∃ m, a = .fixnum m
    · have hb : ∀ n, b ≠ .fixnum n := fun n hn => hfixnums ⟨hfix, n, hn⟩
      obtain ⟨i, bn, rfl, hbn⟩ := hobject hy hb
      refine hflipped hbn ?_ hsame
      rw [hframe i (List.getElem?_eq_some_iff.mp hbn).1, getElem?_flip, if_pos rfl, getElem?_flip,
        if_neg hne, hbn]
      rfl
    · obtain ⟨i, bn, rfl, hbn⟩ := hobject hx fun m hm => hfix ⟨m, hm⟩
      refine hflipped hbn ?_ hsame
      rw [hframe i (List.getElem?_eq_some_iff.mp hbn).1, getElem?_flip, if_neg (Ne.symm hne),
        getElem?_flip, if_pos rfl, hbn]
      rfl
  · intro hcases
    refine Extends.sameNumbers hwell ⟨hlength, ?_⟩
    intro i hi
    rw [hframe i hi, getElem?_flip, getElem?_flip]
    rcases hcases with rfl | ⟨⟨m, rfl⟩, n, rfl⟩
    · by_cases hai : a = .ptr i
      · simp [hai, Function.comp_def, negateObj_negateObj]
      · simp [hai]
    · simp

theorem div_integers_iff (hwell : h.WellFormed) (hx : WideInt h a x) (hy : WideInt h b y) :
    Returns ((arith flo (depth + 3)).div a b) h (fun _ h' => SameNumbers h h') ↔
      0 ≤ y.toInt ∨ a = b ∨ ((∃ m, a = .fixnum m) ∧ ∃ n, b = .fixnum n) ∨ Restored x y := by
  have htable := divTable_integer flo (depth + 1) hx.1 hy.1
  by_cases hzero : y.toInt = 0
  · refine iff_of_true ?_ (.inl hzero.ge)
    obtain ⟨r, h', hrun, hext⟩ := normalizeNew_zero flo (depth + 1) a hy hzero
    exact ⟨r, h', htable.trans hrun, hext.sameNumbers hwell⟩
  · obtain ⟨r, h', hrun, hlength, hframe, -⟩ := normalizeNew_run flo (depth + 1) hx hy hzero
    have hsame : Returns ((arith flo (depth + 3)).div a b) h (fun _ h' => SameNumbers h h') ↔
        SameNumbers h h' := by
      constructor
      · rintro ⟨r₁, h₁, hrun₁, hsame⟩
        obtain ⟨-, rfl⟩ := Prod.mk.inj (some.inj (hrun₁.symm.trans (htable.trans hrun)))
        exact hsame
      · exact fun hsame => ⟨r, h', htable.trans hrun, hsame⟩
    rw [hsame]
    by_cases hflip : y.toInt < 0 ∧ ¬ Restored x y
    · rw [normalizedHeap, if_pos hflip] at hframe
      rw [sameNumbers_flips hwell hlength hx.1 hy.1 hframe]
      have hneg : ¬ 0 ≤ y.toInt := by omega
      simp only [hneg, hflip.2, or_false, false_or]
    · rw [normalizedHeap, if_neg hflip] at hframe
      refine iff_of_true (Extends.sameNumbers hwell ⟨hlength, hframe⟩) ?_
      by_cases hneg : y.toInt < 0
      · exact .inr (.inr (.inr (not_not.mp fun hnot => hflip ⟨hneg, hnot⟩)))
      · exact .inl (by omega)

/-! ## The law -/

/-- The operations of the tower. -/
inductive Op where
  | add
  | sub
  | mul
  | div
  | quotient
  | remainder
  | compare

/-- The entry point of an operation. -/
def Arith.run (tower : Arith F) : Op → Val → Val → NumM F Val
  | .add => tower.add
  | .sub => tower.sub
  | .mul => tower.mul
  | .div => tower.div
  | .quotient => tower.quotient
  | .remainder => tower.remainder
  | .compare => tower.compare

/-- The call returns, and every object that was there denotes what it did. -/
def KeepsFrame (op : Op) (h : Heap F) (a b : Val) : Prop :=
  Returns ((arith flo depth).run op a b) h fun _ h' => SameNumbers h h'

/-- A difference with a complex number negates both parts of its operand in the same
object, or in none, and no complex number is subtracted from a ratio. -/
def SubtractSafe (h : Heap F) (a b : Val) : Prop :=
  match h.lookup a, h.lookup b with
  | some (.ratio _ _), some (.complex _ _) => False
  | _, some (.complex real imag) => signCell h real = signCell h imag
  | some (.complex real imag), _ => signCell h real = signCell h imag
  | _, _ => True

/-- The operands for which an operation keeps its frame.  Of two integers the divisor
must not be negative, unless both are the same object, both are fixnums or the
sign adjustments cancel; a fixnum is not divided by zero. -/
def FrameSafe : Op → Heap F → Val → Val → Prop
  | .sub, h, a, b => SubtractSafe h a b
  | .div, h, a, b =>
    ∀ x y, h.integer? a = some x → h.integer? b = some y →
      0 ≤ y.toInt ∨ a = b ∨ ((∃ m, a = .fixnum m) ∧ ∃ n, b = .fixnum n) ∨ Restored x y
  | .quotient, _, a, b | .remainder, _, a, b => ¬ ((∃ n, a = .fixnum n) ∧ b = .zero)
  | .add, _, _, _ | .mul, _, _, _ | .compare, _, _, _ => True

private theorem returns_none {program : NumM F Val} {post : Val → Heap F → Prop}
    (hnone : program h = none) : ¬ Returns program h post := by
  rintro ⟨r, h', hrun, -⟩
  rw [hnone] at hrun
  simp at hrun

private theorem returns_iff {program : NumM F Val} {effect post : Heap F → Prop} {safe : Prop}
    (hreturns : Returns program h fun _ h' => effect h')
    (hpost : ∀ h', effect h' → (post h' ↔ safe)) :
    Returns program h (fun _ h' => post h') ↔ safe := by
  obtain ⟨r, h', hrun, heffect⟩ := hreturns
  constructor
  · rintro ⟨r₁, h₁, hrun₁, hpost₁⟩
    obtain ⟨-, rfl⟩ := Prod.mk.inj (some.inj (hrun.symm.trans hrun₁))
    exact (hpost h' heffect).mp hpost₁
  · intro hsafe
    exact ⟨r, h', hrun, (hpost h' heffect).mpr hsafe⟩

theorem RepQ.lookup_ne_complex (hv : RepQ h v q) (re im : Val) :
    h.lookup v ≠ some (.complex re im) := by
  intro hlookup
  obtain ⟨type, htype, hexact⟩ := (show WideQ h v from ⟨_, _, hv.holds⟩).numberType
  have heq := htype.symm.trans (numberType_complex hlookup)
  obtain ⟨rfl, -⟩ := Prod.mk.inj (some.inj heq)
  cases hexact

private theorem exists_ptr {object : Obj F} (hv : h.lookup v = some object) :
    ∃ k, v = .ptr k ∧ h[k]? = some object := by
  obtain ⟨k, rfl⟩ := Heap.ptr_of_lookup hv
  exact ⟨k, rfl, hv⟩

private theorem subtractSafe_right (hb : h.lookup b = some (.complex real imag))
    (hratio : ∀ num den, h.lookup a ≠ some (.ratio num den)) :
    SubtractSafe h a b ↔ signCell h real = signCell h imag := by
  simp only [SubtractSafe, hb]

private theorem subtractSafe_left (ha : h.lookup a = some (.complex real imag))
    (hb : ∀ re im, h.lookup b ≠ some (.complex re im)) :
    SubtractSafe h a b ↔ signCell h real = signCell h imag := by
  simp only [SubtractSafe, ha]

theorem keepsFrame_sub_iff (hwell : h.WellFormed) (ha : ExactNumber h a) (hb : ExactNumber h b) :
    KeepsFrame flo (depth + 3) .sub h a b ↔ SubtractSafe h a b := by
  cases hb with
  | rational hq =>
    have hnotB := hq.lookup_ne_complex
    cases ha with
    | rational hp =>
      have hnotA := hp.lookup_ne_complex
      refine iff_of_true ?_ ?_
      · exact (sexpSub_run flo (depth + 1) hp.holds hq.holds).mono
          fun _ _ hdifference => hdifference.1.frame.sameNumbers hwell
      · unfold SubtractSafe
        split <;> simp_all
    | complex hlookup hreal himag =>
      obtain ⟨k, rfl, hk⟩ := exists_ptr hlookup
      rw [subtractSafe_left hlookup hnotB]
      exact returns_iff (complexSub_effect flo depth ⟨_, _, hq.holds⟩ hk ⟨_, _, hreal.holds⟩
        ⟨_, _, himag.holds⟩) fun h' heffect => heffect.sameNumbers_iff flo hwell hk hreal himag
  | complex hlookup hreal himag =>
    obtain ⟨k, rfl, hk⟩ := exists_ptr hlookup
    by_cases hratio : ∃ num den, h.lookup a = some (.ratio num den)
    · obtain ⟨num, den, hratio⟩ := hratio
      have hwide : WideQ h a := by
        rcases ha.operand with hwide | ⟨re, im, hcomplex, -⟩
        · exact hwide
        · simp [hcomplex] at hratio
      refine iff_of_false (returns_none (ratioSub_complex flo depth hk ⟨_, _, hreal.holds⟩
        ⟨_, _, himag.holds⟩ hwide hratio)) ?_
      simp only [SubtractSafe, hratio, hlookup, not_false_eq_true]
    · have hnot : ∀ num den, h.lookup a ≠ some (.ratio num den) :=
        fun num den heq => hratio ⟨num, den, heq⟩
      rw [subtractSafe_right hlookup hnot]
      exact returns_iff (subComplex_effect flo depth ha hk ⟨_, _, hreal.holds⟩
        ⟨_, _, himag.holds⟩ hnot) fun h' heffect => heffect.sameNumbers_iff flo hwell hk hreal himag

private theorem ExactNumber.wideInt (hv : ExactNumber h v) (hx : h.integer? v = some x) :
    ∃ x, WideInt h v x := by
  cases hv with
  | rational hq =>
    obtain ⟨z, hz, -⟩ | ⟨num, den, z, y, hratio, -⟩ := hq.view
    · exact ⟨z, hz⟩
    · exact absurd hratio.lookup (lookup_ne_ratio hx)
  | complex hlookup _ _ =>
    obtain ⟨i, rfl⟩ := Heap.ptr_of_lookup hlookup
    simp only [Heap.integer?, hlookup] at hx
    simp at hx

theorem keepsFrame_div_iff (hwell : h.WellFormed) (ha : ExactNumber h a) (hb : ExactNumber h b) :
    KeepsFrame flo (depth + 3) .div h a b ↔ FrameSafe .div h a b := by
  by_cases hintegers : (∃ x, WideInt h a x) ∧ ∃ y, WideInt h b y
  · obtain ⟨⟨x, hx⟩, y, hy⟩ := hintegers
    refine (div_integers_iff flo depth hwell hx hy).trans ?_
    simp only [FrameSafe, hx.1, hy.1, Option.some.injEq]
    constructor
    · rintro hsafe _ _ rfl rfl
      exact hsafe
    · intro hsafe
      exact hsafe x y rfl rfl
  · refine iff_of_true ?_ ?_
    · exact (div_frame flo depth ha hb hintegers).mono fun _ _ hext => hext.sameNumbers hwell
    · intro x y hx hy
      exact absurd ⟨ha.wideInt hx, hb.wideInt hy⟩ hintegers

/-- The frame law: a call keeps every number in the heap exactly on the safe
operands, as far as the `int` counts of the digit routines reach. -/
theorem keepsFrame_iff (op : Op) (hwell : h.WellFormed) (_hfits : h.FitsInt)
    (ha : ExactNumber h a) (hb : ExactNumber h b) :
    KeepsFrame flo (depth + 3) op h a b ↔ FrameSafe op h a b := by
  have hframe : ∀ {program : NumM F Val}, Returns program h (fun _ h' => Extends h h') →
      Returns program h fun _ h' => SameNumbers h h' := fun hreturns =>
    hreturns.mono fun _ _ hext => hext.sameNumbers hwell
  cases op with
  | add => exact iff_of_true (hframe (add_frame flo depth ha hb)) trivial
  | sub => exact keepsFrame_sub_iff flo depth hwell ha hb
  | mul => exact iff_of_true (hframe (mul_frame flo depth ha hb)) trivial
  | div => exact keepsFrame_div_iff flo depth hwell ha hb
  | quotient =>
    constructor
    · rintro hkeeps ⟨⟨n, rfl⟩, rfl⟩
      exact returns_none (divide_zero flo (depth + 2) n).1 hkeeps
    · intro hsafe
      exact hframe (quotient_frame flo (depth + 2) ha hb hsafe)
  | remainder =>
    constructor
    · rintro hkeeps ⟨⟨n, rfl⟩, rfl⟩
      exact returns_none (divide_zero flo (depth + 2) n).2 hkeeps
    · intro hsafe
      exact hframe (remainder_frame flo (depth + 2) ha hb hsafe)
  | compare => exact iff_of_true (hframe (compare_frame flo depth ha hb)) trivial

end Law

/-- The bignum `2^64`. -/
private def twoTo64 : Bignum := ⟨.pos, [0, 1]⟩

private theorem twoTo64_canonical : (bignum twoTo64).Canonical :=
  (by decide : ¬ InFixnumRange (Bignum.toInt ⟨.pos, [0, 1]⟩))

private theorem wellFormed_twoTo64 : Heap.WellFormed [(.bignum twoTo64 : Obj Unit)] := by
  intro i object hobject
  cases i with
  | zero =>
    obtain rfl := some.inj hobject
    exact twoTo64_canonical
  | succ i => simp at hobject

private theorem twoTo64_exact :
    ExactNumber [(.bignum twoTo64 : Obj Unit)] (.ptr 0) :=
  .rational (.inl ⟨_, ⟨_, rfl, twoTo64_canonical, rfl⟩, rfl⟩)

private theorem fixnum_exact (n : Fixnum) (h : Heap Unit) : ExactNumber h (.fixnum n) :=
  .rational (.inl ⟨_, ⟨_, rfl, trivial, rfl⟩, rfl⟩)

/-- `2^64` divided by three. -/
theorem keepsFrame_three :
    KeepsFrame oneFlonum 3 .div [.bignum twoTo64] (.ptr 0) (.fixnum (sexpMakeFixnum 3)) := by
  have hfits : Heap.FitsInt [(.bignum twoTo64 : Obj Unit)] := by
    intro bn hbn
    cases List.mem_singleton.mp hbn
    decide
  refine (keepsFrame_iff oneFlonum 0 .div wellFormed_twoTo64 hfits twoTo64_exact
    (fixnum_exact _ _)).mpr ?_
  intro x y _ hy
  obtain rfl := some.inj hy
  exact .inl (by decide)

/-- `2^64` divided by minus three is negative afterwards. -/
theorem keepsFrame_minus_three :
    Heap.WellFormed [(.bignum twoTo64 : Obj Unit)] ∧
      ExactNumber [(.bignum twoTo64 : Obj Unit)] (.ptr 0) ∧
      ExactNumber [(.bignum twoTo64 : Obj Unit)] (.fixnum (sexpMakeFixnum (-3))) ∧
      ¬ KeepsFrame oneFlonum 3 .div [.bignum twoTo64] (.ptr 0) (.fixnum (sexpMakeFixnum (-3))) := by
  refine ⟨wellFormed_twoTo64, twoTo64_exact, fixnum_exact _ _, ?_⟩
  intro hkeeps
  have hx : WideInt [(.bignum twoTo64 : Obj Unit)] (.ptr 0) (bignum twoTo64) :=
    ⟨rfl, twoTo64_canonical.wide⟩
  have hy : WideInt [(.bignum twoTo64 : Obj Unit)] (.fixnum (sexpMakeFixnum (-3)))
      (fixnum (sexpMakeFixnum (-3))) := ⟨rfl, trivial⟩
  rcases (div_integers_iff oneFlonum 0 wellFormed_twoTo64 hx hy).mp hkeeps with
    hsign | heq | ⟨⟨m, hm⟩, -⟩ | hrestored
  · exact absurd hsign (by decide)
  · cases heq
  · cases hm
  · exact absurd hrestored.1 (by decide)

end ChibiScheme
