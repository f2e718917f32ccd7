import ChibiScheme.Numeric.Complex

/-!
# Subtraction of complex numbers

`sexp_complex_sub` and the complex rows of `sexp_sub`, with their effect on the
objects that were there before the call (`SubEffect`): the signs of the parts of
one operand are changed where they are, twice if both parts lead to the same
object, and the operand is given copies of its parts.
-/

namespace ChibiScheme

open Stateful ExactInt List Option

variable {F : Type} {h h' : Heap F} {v a b real imag : Val} {bound : ℕ} (flo : FlonumOps F)

/-- An object after a negation that changes `target`. -/
def applyNegation (target : Option ℕ) (i : ℕ) (object : Option (Obj F)) : Option (Obj F) :=
  if target = some i then object.map (negateCell flo) else object

theorem Real.fixnum (n : Fixnum) : Real bound h (.fixnum n) :=
  .exact ⟨_, _, .integer (x := .fixnum n) ⟨rfl, trivial⟩⟩

theorem Real.ne_ptr {t : ℕ} (hv : Real bound h v) (ht : h[t]? = some (.complex real imag)) :
    v ≠ .ptr t := by
  rintro rfl
  obtain ⟨object, hobject, hnot⟩ := hv.getElem?
  exact hnot _ _ (some.inj (hobject.symm.trans ht))

theorem Copied.signCell_eq {k : ℕ} {real' imag' : Val}
    (hcopied : Copied h h' k real imag real' imag') (hk : h[k]? = some (.complex real imag))
    (hv : Real bound h v) : signCell h' v = signCell h v := by
  apply signCell_congr
  rintro addr rfl
  obtain ⟨object, hobject, -⟩ := hv.getElem?
  apply hcopied.frame addr (List.getElem?_eq_some_iff.mp hobject).1
  rintro rfl
  exact hv.ne_ptr hk rfl

private theorem preserves_set {t : ℕ} (ht : h[t]? = some (.complex real imag)) (real' imag' : Val) :
    Preserves 0 h (h.set t (.complex real' imag')) where
  length := by simp
  below i hi := by omega
  shape i object hobject := by
    by_cases hi : i = t
    · subst hi
      obtain rfl := some.inj (ht.symm.trans hobject)
      exact ⟨_, getElem?_set_self (List.getElem?_eq_some_iff.mp ht).1, trivial⟩
    · rw [getElem?_set_ne (Ne.symm hi)]
      exact ⟨object, hobject, SameShape.refl object⟩

theorem negateCell_complex {t : ℕ} {target : Option ℕ} (hnegates : Negates flo h h' target)
    (ht : h[t]? = some (.complex real imag)) : h'[t]? = some (.complex real imag) := by
  rw [hnegates.2 t, ht]
  split <;> rfl

theorem negateParts_run {t : ℕ} (ht : h[t]? = some (.complex real imag))
    (hreal : Real bound h real) (himag : Real bound h imag) :
    Returns (negateParts flo (.ptr t)) h fun _ h' =>
      Preserves 0 h h' ∧ h'.length = h.length ∧
        (∃ real' imag', IsComplex bound h' (.ptr t) real' imag') ∧
        ∀ i ≠ t, h'[i]? =
          applyNegation flo (signCell h imag) i (applyNegation flo (signCell h real) i h[i]?) := by
  have hlt : t < h.length := (List.getElem?_eq_some_iff.mp ht).1
  obtain ⟨real', h₁, hrun₁, hreal', hneg₁⟩ := sexpNegateMaybeRatio_negates flo hreal
  have hpres₁ : Preserves 0 h h₁ := hneg₁.preserves flo fun _ _ => Nat.zero_le _
  have ht₁ := negateCell_complex flo hneg₁ ht
  let h₂ : Heap F := h₁.set t (.complex real' imag)
  have hpres₂ : Preserves 0 h h₂ := hpres₁.trans (preserves_set ht₁ real' imag)
  have hlt₁ : t < h₁.length := by rw [hneg₁.1]; exact hlt
  have ht₂ : h₂[t]? = some (.complex real' imag) := getElem?_set_self hlt₁
  obtain ⟨imag', h₃, hrun₃, himag', hneg₃⟩ :=
    sexpNegateMaybeRatio_negates flo (himag.of_preserves hpres₂)
  have ht₃ := negateCell_complex flo hneg₃ ht₂
  have hlt₃ : t < h₃.length := by
    rw [hneg₃.1]
    simpa [h₂] using hlt₁
  let h₄ : Heap F := h₃.set t (.complex real' imag')
  have hpres₃ : Preserves 0 h₂ h₃ := hneg₃.preserves flo fun _ _ => Nat.zero_le _
  have hpres₄ : Preserves 0 h h₄ := (hpres₂.trans hpres₃).trans (preserves_set ht₃ real' imag')
  have htarget : signCell h₂ imag = signCell h imag := by
    rw [← hneg₁.signCell_eq flo imag]
    apply signCell_congr
    rintro addr rfl
    rw [getElem?_set_ne]
    rintro rfl
    exact himag.ne_ptr ht rfl
  have hpart : ∀ {w w' : Val}, Real bound h w → (w' = w ∨ ∃ n, w' = .fixnum n) →
      Real bound h₄ w' := by
    rintro w w' hw (rfl | ⟨n, rfl⟩)
    · exact hw.of_preserves hpres₄
    · exact Real.fixnum n
  refine ⟨(), h₄, ?_, hpres₄, ?_, ⟨real', imag', getElem?_set_self hlt₃,
    hpart hreal hreal', hpart himag himag'⟩, ?_⟩
  · refine (bind_run (readComplex_run (v := .ptr t) ht)).trans ?_
    refine (bind_run hrun₁).trans ?_
    refine (bind_run (writeObj_run hlt₁ _)).trans ?_
    refine (bind_run hrun₃).trans ?_
    exact writeObj_run hlt₃ _
  · simp [h₄, h₂, hneg₃.1, hneg₁.1]
  · intro i hi
    rw [getElem?_set_ne (Ne.symm hi), hneg₃.2 i, getElem?_set_ne (Ne.symm hi), hneg₁.2 i, htarget]
    rfl

/-- The objects below `limit` after the parts of the complex number at `k` have
been negated, and copies of the parts stored in it. -/
structure SubEffect (limit : ℕ) (h h' : Heap F) (k : ℕ) (real imag : Val) : Prop where
  length : h.length ≤ h'.length
  frame : ∀ i < limit, i ≠ k → h'[i]? =
    applyNegation flo (signCell h imag) i (applyNegation flo (signCell h real) i h[i]?)
  operand : ∃ real' imag', h'[k]? = some (.complex real' imag') ∧ CopyOf h h' real real' ∧
    CopyOf h h' imag imag'

private theorem CopyOf.unchanged {h₁ : Heap F} {v' : Val} (hcopy : CopyOf h h₁ v v')
    (hsame : ∀ addr, h.length ≤ addr → (∃ object, h₁[addr]? = some object ∧
      ∀ real imag, object ≠ .complex real imag) → h'[addr]? = h₁[addr]?) : CopyOf h h' v v' := by
  rcases hcopy with heq | ⟨object, hobject, hobject', hfresh, hleaf⟩
  · exact .inl heq
  · refine .inr ⟨object, hobject, ?_, hfresh, hleaf⟩
    obtain ⟨addr, rfl⟩ := Heap.ptr_of_lookup hobject'
    refine (hsame addr hfresh ⟨object, hobject', ?_⟩).trans hobject'
    rintro real imag rfl
    rcases hleaf with ⟨x, hx⟩ | ⟨bn, hbn⟩ <;> simp_all

theorem signCell_lt (hv : WideQ h v) : ∀ i, signCell h v = some i → i < h.length := by
  intro i hi
  obtain ⟨m, d, hholds⟩ := hv
  cases hholds with
  | integer hx =>
    rename_i x
    have hcontents := hx.1
    cases x with
    | fixnum n =>
      rw [integer?_eq_some_fixnum_iff] at hcontents
      simp [hcontents, signCell] at hi
    | bignum bn =>
      rw [integer?_eq_some_bignum_iff] at hcontents
      obtain ⟨addr, rfl⟩ := Heap.ptr_of_lookup hcontents
      have hobject : h[addr]? = some (.bignum bn) := hcontents
      simp only [signCell, hobject, Option.some.injEq] at hi
      rw [← hi]
      exact (List.getElem?_eq_some_iff.mp hobject).1
  | ratio hratio =>
    rename_i num den x y
    cases v with
    | ptr addr =>
      have hobject : h[addr]? = some (.ratio num den) := hratio.lookup
      have hlt := (List.getElem?_eq_some_iff.mp hobject).1
      cases num with
      | fixnum n =>
        simp only [signCell, hobject] at hi
        split at hi
        · simp at hi
        · rw [← some.inj hi]
          exact hlt
      | ptr j =>
        simp only [signCell, hobject, Option.some.injEq] at hi
        rw [← hi]
        exact lt_length_of_integer hratio.num.1
      | _ =>
        have hcontents := hratio.num.1
        simp [Heap.integer?, Heap.lookup] at hcontents
    | _ =>
      have hlookup := hratio.lookup
      simp [Heap.lookup] at hlookup

theorem CopyOf.wide {v' : Val} (hcopy : CopyOf h h' v v') (hv : WideQ h v)
    (hpreserves : Preserves 0 h h') : WideQ h' v' := by
  rcases hcopy with rfl | ⟨object, hobject, hobject', -, hleaf⟩
  · exact hv.of_preserves hpreserves
  obtain ⟨m, d, hholds⟩ := hv
  cases hholds with
  | integer hx =>
    rename_i x
    have hcontents := hx.1
    cases x with
    | fixnum n =>
      rw [integer?_eq_some_fixnum_iff] at hcontents
      simp [hcontents, Heap.lookup] at hobject
    | bignum bn =>
      rw [integer?_eq_some_bignum_iff, hobject] at hcontents
      obtain rfl := some.inj hcontents
      exact ⟨_, _, .integer ⟨integer?_eq_some_bignum_iff.mpr hobject', hx.2⟩⟩
  | ratio hratio =>
    rw [hratio.lookup] at hobject
    obtain rfl := some.inj hobject
    rcases hleaf with ⟨x, hx⟩ | ⟨bn, hbn⟩
    · simp at hx
    · simp at hbn

theorem applyNegation_complex (target : Option ℕ) (i : ℕ) :
    applyNegation flo target i (some (.complex real imag)) = some (.complex real imag) := by
  unfold applyNegation
  split <;> rfl

theorem applyNegation_of_ne {target : Option ℕ} {i : ℕ} {object : Option (Obj F)}
    (hne : target ≠ some i) : applyNegation flo target i object = object :=
  if_neg hne

section Routines

variable (depth : ℕ) {areal aimag : Val}

theorem sexpComplexSub_run {k : ℕ} (ha : IsComplex bound h a areal aimag)
    (hb : h[k]? = some (.complex real imag)) (hreal : WideQ h real) (himag : WideQ h imag)
    (hle : bound ≤ h.length) :
    Returns (sexpComplexSub flo (arith flo (depth + 2)) a (.ptr k)) h fun r h' =>
      ∃ h₂ : Heap F, SubEffect flo h.length h h₂ k real imag ∧ Extends h₂ h' ∧
        ComplexResult bound h₂ h' r := by
  have hrealR : Real bound h real := .exact hreal
  have himagR : Real bound h imag := .exact himag
  have hcomplex : IsComplex bound h (.ptr k) real imag := ⟨hb, hrealR, himagR⟩
  refine (sexpComplexCopy_run hcomplex).bind ?_
  rintro tmp h₁ ⟨rfl, real', imag', hcopied⟩
  have hpres₁ : Preserves 0 h h₁ := hcopied.preserves hb (Nat.zero_le k)
  refine (negateParts_run flo hcopied.copy (hrealR.of_preserves hpres₁)
    (himagR.of_preserves hpres₁)).bind ?_
  rintro - h₂ ⟨hpres₂, hlength₂, ⟨real₂, imag₂, htmp⟩, hframe₂⟩
  rw [hcopied.signCell_eq hb hrealR, hcopied.signCell_eq hb himagR] at hframe₂
  have hkey : ∀ {i : ℕ} {r s : Val}, i ≠ h.length → h₁[i]? = some (.complex r s) →
      h₂[i]? = some (.complex r s) := by
    intro i r s hi hobject
    rw [hframe₂ i hi, hobject, applyNegation_complex, applyNegation_complex]
  have hk : k ≠ h.length := (List.getElem?_eq_some_iff.mp hb).1.ne
  have hnew : ∀ addr, h.length ≤ addr → (∃ object, h₁[addr]? = some object ∧
      ∀ real imag, object ≠ .complex real imag) → h₂[addr]? = h₁[addr]? := by
    rintro addr haddr ⟨object, hobject, hnot⟩
    have hne : addr ≠ h.length := by
      rintro rfl
      exact hnot _ _ (some.inj (hobject.symm.trans hcopied.copy))
    rw [hframe₂ addr hne, applyNegation_of_ne, applyNegation_of_ne]
    · intro htarget
      exact absurd (signCell_lt hreal addr htarget) (by omega)
    · intro htarget
      exact absurd (signCell_lt himag addr htarget) (by omega)
  have heffect : SubEffect flo h.length h h₂ k real imag := by
    refine ⟨by have := hcopied.length; omega, ?_, real', imag', hkey hk hcopied.operand,
      hcopied.real.unchanged hnew, hcopied.imag.unchanged hnew⟩
    intro i hi hik
    rw [hframe₂ i (by omega), hcopied.frame i hi hik]
  have hpres := hpres₁.trans hpres₂
  have hlength := hcopied.length
  -- the first operand may be the second
  have ha₂ : ∃ areal' aimag', IsComplex bound h₂ a areal' aimag' := by
    cases a with
    | ptr j =>
      by_cases hj : j = k
      · subst hj
        refine ⟨real', imag', hkey hk hcopied.operand, ?_, ?_⟩
        · exact .exact ((hcopied.real.unchanged hnew).wide hreal hpres)
        · exact .exact ((hcopied.imag.unchanged hnew).wide himag hpres)
      · have hlookup : h[j]? = some (.complex areal aimag) := ha.lookup
        have hjlt : j < h.length := (List.getElem?_eq_some_iff.mp hlookup).1
        refine ⟨areal, aimag, hkey hjlt.ne ?_, ha.real.of_preserves hpres,
          ha.imag.of_preserves hpres⟩
        rw [hcopied.frame j hjlt hj, hlookup]
    | _ =>
      have hlookup := ha.lookup
      simp [Heap.lookup] at hlookup
  obtain ⟨areal', aimag', ha₂⟩ := ha₂
  refine (sexpComplexAdd_run flo depth ha₂ htmp (by omega)).mono ?_
  rintro r h' ⟨hext, hresult⟩
  exact ⟨h₂, heffect, hext, hresult⟩

theorem negateResult_run {h₂ : Heap F} {r : Val} (hext : Extends h₂ h)
    (hresult : ComplexResult bound h₂ h r) :
    Returns (negateResult flo r) h fun _ h' =>
      h.length ≤ h'.length ∧ ∀ i < h₂.length, (i < bound ∨ ∀ x, h₂[i]? ≠ some (.flonum x)) →
        h'[i]? = h[i]? := by
  have huntouched : ∀ {w : Val} {i : ℕ}, DeepFresh bound h w → CellNew h₂ h w → i < h₂.length →
      (i < bound ∨ ∀ x, h₂[i]? ≠ some (.flonum x)) → signCell h w ≠ some i := by
    intro w i hfresh hcell hi hcond htarget
    rcases hcond with hlt | hnot
    · exact absurd (hfresh.signCell_ge i htarget) (by omega)
    · rcases hcell i htarget with hge | ⟨x, hx⟩
      · omega
      · exact hnot x hx
  rcases hresult with ⟨hreal, hfresh, hcell⟩ | ⟨addr, real, imag, rfl, haddr, hcomplex,
    ⟨hfreshR, hcellR⟩, hfreshI, hcellI⟩
  · obtain ⟨type, htype, hrealType, -⟩ := hreal.numberType
    obtain ⟨r', h', hrun, -, hnegates⟩ := sexpNegateMaybeRatio_negates flo hreal
    have hne : type ≠ .cpx := by
      rintro rfl
      cases hrealType
    refine ⟨r', h', ?_, hnegates.1.ge, ?_⟩
    · refine (bind_run htype).trans ?_
      rw [if_neg hne]
      exact hrun
    · intro i hi hcond
      rw [hnegates.2 i, if_neg (huntouched hfresh hcell hi hcond)]
  · have hobject : h[addr]? = some (.complex real imag) := hcomplex.lookup
    refine Returns.of_bind_run (numberType_complex hcomplex.lookup) ?_
    rw [if_pos rfl]
    refine (sexpComplexCopy_run hcomplex).bind ?_
    rintro tmp h₁ ⟨rfl, real', imag', hcopied⟩
    have hpres₁ : Preserves 0 h h₁ := hcopied.preserves hobject (Nat.zero_le addr)
    refine (negateParts_run flo hcopied.copy (hcomplex.real.of_preserves hpres₁)
      (hcomplex.imag.of_preserves hpres₁)).bind ?_
    rintro - h' ⟨-, hlength, -, hframe⟩
    have hle := hext.1
    refine Returns.pure ⟨by have := hcopied.length; omega, ?_⟩
    intro i hi hcond
    rw [hframe i (by omega), hcopied.signCell_eq hobject hcomplex.real,
      hcopied.signCell_eq hobject hcomplex.imag, applyNegation_of_ne, applyNegation_of_ne,
      hcopied.frame i (by omega) (by omega)]
    · exact huntouched hfreshR hcellR hi hcond
    · exact huntouched hfreshI hcellI hi hcond

private theorem CopyOf.later {h₂ : Heap F} {v' : Val} (hcopy : CopyOf h h₂ v v') (hv : WideQ h v)
    (hsame : ∀ i < h₂.length, (∀ x, h₂[i]? ≠ some (.flonum x)) → h'[i]? = h₂[i]?) :
    CopyOf h h' v v' := by
  rcases hcopy with heq | ⟨object, hobject, hobject', hfresh, hleaf⟩
  · exact .inl heq
  refine .inr ⟨object, hobject, ?_, hfresh, hleaf⟩
  obtain ⟨addr, rfl⟩ := Heap.ptr_of_lookup hobject'
  have hlt := (List.getElem?_eq_some_iff.mp hobject').1
  refine (hsame addr hlt ?_).trans hobject'
  intro x hx
  obtain rfl := some.inj (hobject'.symm.trans hx)
  -- the copied part would be a flonum
  obtain ⟨m, d, hholds⟩ := hv
  cases hholds with
  | integer hint =>
    rename_i z
    have hcontents := hint.1
    cases z with
    | fixnum n =>
      rw [integer?_eq_some_fixnum_iff] at hcontents
      simp [hcontents, Heap.lookup] at hobject
    | bignum bn =>
      rw [integer?_eq_some_bignum_iff, hobject] at hcontents
      simp at hcontents
  | ratio hratio =>
    rw [hratio.lookup] at hobject
    simp at hobject

theorem subComplex_run {k : ℕ} (ha : IsComplex bound h a areal aimag)
    (hb : h[k]? = some (.complex real imag)) (hreal : WideQ h real) (himag : WideQ h imag)
    (hle : bound ≤ h.length) (hk : k < bound) (negatep : Bool) :
    Returns (subComplex flo (arith flo (depth + 2)) a (.ptr k) negatep) h fun _ h' =>
      SubEffect flo bound h h' k real imag := by
  have hlater : ∀ {h₂ h' : Heap F}, SubEffect flo h.length h h₂ k real imag →
      h₂.length ≤ h'.length →
      (∀ i < h₂.length, (i < bound ∨ ∀ x, h₂[i]? ≠ some (.flonum x)) → h'[i]? = h₂[i]?) →
      SubEffect flo bound h h' k real imag := by
    intro h₂ h' heffect hlength hsame
    have hlength₂ := heffect.length
    obtain ⟨real', imag', hoperand, hcopyR, hcopyI⟩ := heffect.operand
    refine ⟨hlength₂.trans hlength, ?_, real', imag', ?_, ?_, ?_⟩
    · intro i hi hik
      rw [hsame i (by omega) (.inl hi), heffect.frame i (by omega) hik]
    · rw [hsame k (by omega) (.inl hk), hoperand]
    · exact hcopyR.later hreal fun i hi hnot => hsame i hi (.inr hnot)
    · exact hcopyI.later himag fun i hi hnot => hsame i hi (.inr hnot)
  refine (sexpComplexSub_run flo depth ha hb hreal himag hle).bind ?_
  rintro r h' ⟨h₂, heffect, hext, hresult⟩
  cases negatep with
  | false =>
    exact Returns.pure (hlater heffect hext.1 fun i hi _ => hext.2 i hi)
  | true =>
    refine (negateResult_run flo hext hresult).mono ?_
    rintro r' h'' ⟨hlength, hsame⟩
    refine hlater heffect (hext.1.trans hlength) fun i hi hcond => ?_
    rw [hsame i hi hcond, hext.2 i hi]

theorem SubEffect.of_extends {h₁ : Heap F} {k : ℕ} (hext : Extends h h₁) (hreal : WideQ h real)
    (himag : WideQ h imag) (heffect : SubEffect flo h.length h₁ h' k real imag) :
    SubEffect flo h.length h h' k real imag := by
  have hpart : ∀ {w : Val}, WideQ h w → Real 0 h w := fun hw => .exact hw
  have hcell : ∀ {w : Val}, WideQ h w → signCell h₁ w = signCell h w := fun hw =>
    (hpart hw).signCell_of_extends hext
  have hcopy : ∀ {w w' : Val}, WideQ h w → CopyOf h₁ h' w w' → CopyOf h h' w w' := by
    rintro w w' hw (heq | ⟨object, hobject, hobject', hfresh, hleaf⟩)
    · exact .inl heq
    · refine .inr ⟨object, ?_, hobject', hfresh.mono hext.1, hleaf⟩
      obtain ⟨addr, rfl⟩ := Heap.ptr_of_lookup hobject
      obtain ⟨object₀, hobject₀, -⟩ := (hpart hw).getElem?
      exact (hext.2 addr (List.getElem?_eq_some_iff.mp hobject₀).1).symm.trans hobject
  obtain ⟨real', imag', hoperand, hcopyR, hcopyI⟩ := heffect.operand
  refine ⟨hext.1.trans heffect.length, ?_, real', imag', hoperand, hcopy hreal hcopyR,
    hcopy himag hcopyI⟩
  intro i hi hik
  rw [heffect.frame i hi hik, hcell hreal, hcell himag, hext.2 i hi]

end Routines

end ChibiScheme
