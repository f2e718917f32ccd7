import ChibiScheme.Numeric.Reals

/-!
# Complex numbers: what the routines change

Sums, products and quotients of complex numbers leave every object as it was.  A
difference does not: `sexp_complex_sub` copies its second operand and negates the
copy in place, but `sexp_complex_copy` stores the copies of the parts into the
operand and leaves the original parts to the copy.  What is negated are the
parts the operand was made of.
-/

namespace ChibiScheme

open Stateful ExactInt List

variable {F : Type} {h h' : Heap F} {v a b : Val} {x y : ExactInt} {bound : ℕ}

/-- `v` is a complex number with the given parts. -/
structure IsComplex (bound : ℕ) (h : Heap F) (v real imag : Val) : Prop where
  lookup : h.lookup v = some (.complex real imag)
  real : Real bound h real
  imag : Real bound h imag

theorem IsComplex.of_extends {real imag : Val} (hextends : Extends h h')
    (hv : IsComplex bound h v real imag) : IsComplex bound h' v real imag :=
  ⟨lookup_of_extends hextends hv.lookup, hv.real.of_extends hextends, hv.imag.of_extends hextends⟩

theorem numberType_complex {real imag : Val} (hv : h.lookup v = some (.complex real imag)) :
    numberType v h = some (.cpx, h) := by
  obtain ⟨addr, rfl⟩ := Heap.ptr_of_lookup hv
  simp only [numberType, hv]

theorem wrap_isComplex (hv : Real bound h v) :
    IsComplex bound (h ++ [.complex v .zero]) (.ptr h.length) v .zero where
  lookup := by simp [Heap.lookup]
  real := hv.of_extends (Extends.append h _)
  imag := (zero_result bound _).real

theorem sexpComplexNormalize_run {real imag : Val} (hv : h.lookup v = some (.complex real imag)) :
    sexpComplexNormalize v h = some (if imag = .zero then real else v, h) :=
  (bind_run (numberType_complex hv)).trans (bind_run (readComplex_run hv))

/-- What a sum of complex numbers returns: a complex number or its real part, new
with all it is made of. -/
def ComplexResult (bound : ℕ) (h₀ h : Heap F) (r : Val) : Prop :=
  (Real bound h r ∧ DeepFresh bound h r ∧ CellNew h₀ h r) ∨
    ∃ addr real imag, r = .ptr addr ∧ h₀.length ≤ addr ∧ IsComplex bound h r real imag ∧
      (DeepFresh bound h real ∧ CellNew h₀ h real) ∧ DeepFresh bound h imag ∧ CellNew h₀ h imag

section Routines

variable (flo : FlonumOps F) (depth : ℕ) {areal aimag breal bimag : Val}

theorem sexpComplexAdd_run (ha : IsComplex bound h a areal aimag)
    (hb : IsComplex bound h b breal bimag) (hle : bound ≤ h.length) :
    Returns (sexpComplexAdd (arith flo (depth + 2)) a b) h fun r h' =>
      Extends h h' ∧ ComplexResult bound h h' r := by
  refine Returns.of_bind_run (readComplex_run ha.lookup) ?_
  refine Returns.of_bind_run (readComplex_run hb.lookup) ?_
  refine (add_real flo depth ha.real hb.real hle).bind ?_
  intro real h₁ hreal
  refine (add_real flo depth (ha.imag.of_extends hreal.frame) (hb.imag.of_extends hreal.frame)
    (hle.trans hreal.frame.1)).bind ?_
  intro imag h₂ himag
  let h₃ : Heap F := h₂ ++ [.complex real imag]
  have hext : Extends h₂ h₃ := Extends.append h₂ _
  have hlookup : h₃.lookup (.ptr h₂.length) = some (.complex real imag) := by
    simp [h₃, Heap.lookup]
  have hreal₂ := hreal.real.of_extends himag.frame
  have hfresh₂ := hreal.fresh.of_extends himag.frame hreal.real
  have hcellReal : CellNew h h₃ real := by
    intro i hi
    rw [hreal₂.signCell_of_extends hext, hreal.real.signCell_of_extends himag.frame] at hi
    exact hreal.cell i hi
  have hcellImag : CellNew h h₃ imag := by
    intro i hi
    rw [himag.real.signCell_of_extends hext] at hi
    rcases Nat.lt_or_ge i h.length with hlt | hge
    · rcases himag.cell i hi with hge' | ⟨x, hx⟩
      · exact .inl (hreal.frame.1.trans hge')
      · exact .inr ⟨x, (hreal.frame.2 i hlt).symm.trans hx⟩
    · exact .inl hge
  refine Returns.of_bind_run
    (show sexpMakeComplex real imag h₂ = some (.ptr h₂.length, h₃) from rfl) ?_
  refine Returns.of_run (sexpComplexNormalize_run hlookup) ⟨(hreal.frame.trans himag.frame).trans
    hext, ?_⟩
  split
  · exact .inl ⟨hreal₂.of_extends hext, hfresh₂.of_extends hext hreal₂, hcellReal⟩
  · exact .inr ⟨h₂.length, real, imag, rfl, (hreal.frame.trans himag.frame).1,
      ⟨hlookup, hreal₂.of_extends hext, himag.real.of_extends hext⟩,
      ⟨hfresh₂.of_extends hext hreal₂, hcellReal⟩, himag.fresh.of_extends hext himag.real,
      hcellImag⟩

private theorem makeComplex_run (real imag : Val) (h : Heap F) :
    Returns (do sexpComplexNormalize (← sexpMakeComplex real imag)) h fun _ h' => Extends h h' := by
  refine Returns.of_bind_run
    (show sexpMakeComplex real imag h = some (.ptr h.length, h ++ [.complex real imag]) from rfl) ?_
  have hlookup : (h ++ [Obj.complex real imag] : Heap F).lookup (.ptr h.length) =
      some (.complex real imag) := by simp [Heap.lookup]
  exact Returns.of_run (sexpComplexNormalize_run hlookup) (Extends.append h _)

theorem sexpComplexMul_run (ha : IsComplex bound h a areal aimag)
    (hb : IsComplex bound h b breal bimag) (hle : bound ≤ h.length) :
    Returns (sexpComplexMul (arith flo (depth + 2)) a b) h fun _ h' => Extends h h' := by
  refine Returns.of_bind_run (readComplex_run ha.lookup) ?_
  refine Returns.of_bind_run (readComplex_run hb.lookup) ?_
  refine (mul_real flo depth ha.real hb.real hle).bind ?_
  intro real h₁ hreal
  have hext₁ := hreal.frame
  refine (mul_real flo depth (ha.imag.of_extends hext₁) (hb.imag.of_extends hext₁)
    (hle.trans hext₁.1)).bind ?_
  intro res h₂ hres
  have hext₂ := hext₁.trans hres.frame
  refine (sub_real flo depth (hreal.real.of_extends hres.frame) hres.real (hle.trans hext₂.1)).bind ?_
  intro real' h₃ hreal'
  have hext₃ := hext₂.trans hreal'.frame
  refine (mul_real flo depth (ha.real.of_extends hext₃) (hb.imag.of_extends hext₃)
    (hle.trans hext₃.1)).bind ?_
  intro imag h₄ himag
  have hext₄ := hext₃.trans himag.frame
  refine (mul_real flo depth (ha.imag.of_extends hext₄) (hb.real.of_extends hext₄)
    (hle.trans hext₄.1)).bind ?_
  intro res' h₅ hres'
  have hext₅ := hext₄.trans hres'.frame
  refine (add_real flo depth (himag.real.of_extends hres'.frame) hres'.real
    (hle.trans hext₅.1)).bind ?_
  intro imag' h₆ himag'
  refine (makeComplex_run real' imag' h₆).mono ?_
  exact fun _ _ hext => (hext₅.trans himag'.frame).trans hext

theorem sexpComplexDiv_run (ha : IsComplex bound h a areal aimag)
    (hb : IsComplex bound h b breal bimag) (hle : bound ≤ h.length) :
    Returns (sexpComplexDiv (arith flo (depth + 2)) a b) h fun _ h' => Preserves bound h h' := by
  refine Returns.of_bind_run (readComplex_run ha.lookup) ?_
  refine Returns.of_bind_run (readComplex_run hb.lookup) ?_
  refine (mul_real flo depth hb.real hb.real hle).bind ?_
  intro denom h₁ hdenom
  have hext₁ := hdenom.frame
  refine (mul_real flo depth (hb.imag.of_extends hext₁) (hb.imag.of_extends hext₁)
    (hle.trans hext₁.1)).bind ?_
  intro res h₂ hres
  have hext₂ := hext₁.trans hres.frame
  refine (add_real flo depth (hdenom.real.of_extends hres.frame) hres.real
    (hle.trans hext₂.1)).bind ?_
  intro denom' h₃ hdenom'
  have hext₃ := hext₂.trans hdenom'.frame
  refine (mul_real flo depth (ha.real.of_extends hext₃) (hb.real.of_extends hext₃)
    (hle.trans hext₃.1)).bind ?_
  intro real h₄ hreal
  have hext₄ := hext₃.trans hreal.frame
  refine (mul_real flo depth (ha.imag.of_extends hext₄) (hb.imag.of_extends hext₄)
    (hle.trans hext₄.1)).bind ?_
  intro res' h₅ hres'
  have hext₅ := hext₄.trans hres'.frame
  refine (add_real flo depth (hreal.real.of_extends hres'.frame) hres'.real
    (hle.trans hext₅.1)).bind ?_
  intro real' h₆ hreal'
  have hext₆ := hext₅.trans hreal'.frame
  have hdenom₆ := hdenom'.real.of_extends ((hreal.frame.trans hres'.frame).trans hreal'.frame)
  refine (div_real flo depth hreal'.real hdenom₆ (hle.trans hext₆.1) hreal'.fresh.1
    hdenom'.fresh.1).bind ?_
  -- from here on the signs of the numbers made so far are unknown
  intro real'' h₇ hdiv
  have hpres₇ := (hext₆.preserves hle).trans hdiv
  refine (mul_real flo depth (ha.imag.of_preserves hpres₇) (hb.real.of_preserves hpres₇)
    (hle.trans hpres₇.length)).bind ?_
  intro imag h₈ himag
  have hpres₈ := hpres₇.trans (himag.frame.preserves (hle.trans hpres₇.length))
  refine (mul_real flo depth (ha.real.of_preserves hpres₈) (hb.imag.of_preserves hpres₈)
    (hle.trans hpres₈.length)).bind ?_
  intro res'' h₉ hres''
  have hpres₉ := hpres₈.trans (hres''.frame.preserves (hle.trans hpres₈.length))
  refine (sub_real flo depth (himag.real.of_extends hres''.frame) hres''.real
    (hle.trans hpres₉.length)).bind ?_
  intro imag' h₁₀ himag'
  have hpres₁₀ := hpres₉.trans (himag'.frame.preserves (hle.trans hpres₉.length))
  have hdenom₁₀ := (((hdenom₆.of_preserves hdiv).of_extends himag.frame).of_extends
    hres''.frame).of_extends himag'.frame
  refine (div_real flo depth himag'.real hdenom₁₀ (hle.trans hpres₁₀.length) himag'.fresh.1
    hdenom'.fresh.1).bind ?_
  intro imag'' h₁₁ hdiv'
  have hpres₁₁ := hpres₁₀.trans hdiv'
  refine (makeComplex_run real'' imag'' h₁₁).mono ?_
  exact fun _ _ hext => hpres₁₁.trans (hext.preserves (hle.trans hpres₁₁.length))

end Routines

/-! ## Negation of the parts -/

section Negation

variable (flo : FlonumOps F)

/-- What happens to that object. -/
def negateCell : Obj F → Obj F
  | .bignum bn => .bignum bn.negate
  | .flonum x => .flonum (flo.neg x)
  | .ratio (.fixnum n) den => .ratio (.fixnum (sexpFxNeg n)) den
  | object => object

/-- `h'` is `h` with the sign of one object changed, if any. -/
def Negates (h h' : Heap F) (target : Option ℕ) : Prop :=
  h'.length = h.length ∧
    ∀ i, h'[i]? = if target = some i then (h[i]?).map (negateCell flo) else h[i]?

theorem sexpNegateMaybeRatio_negates (hv : Real bound h v) :
    ∃ v' h', sexpNegateMaybeRatio flo v h = some (v', h') ∧ (v' = v ∨ ∃ n, v' = .fixnum n) ∧
      Negates flo h h' (signCell h v) := by
  cases hv with
  | exact hwide =>
    obtain ⟨m, d, hholds⟩ := hwide
    cases hholds with
    | integer hx =>
      rename_i x
      have hsame : negateVal v = v ∨ ∃ n, negateVal v = .fixnum n := by
        cases v with
        | fixnum n => exact .inr ⟨_, rfl⟩
        | _ => exact .inl rfl
      refine ⟨negateVal v, h.flip v, ?_, hsame, length_flip h v, ?_⟩
      · refine (bind_run (numberType_integer hx.1)).trans ?_
        cases x <;> exact sexpNegate_run flo hx.1
      · intro i
        rw [getElem?_flip]
        have hcontents := hx.1
        cases x with
        | fixnum n =>
          rw [integer?_eq_some_fixnum_iff] at hcontents
          simp [hcontents, signCell]
        | bignum bn =>
          rw [integer?_eq_some_bignum_iff] at hcontents
          obtain ⟨addr, rfl⟩ := Heap.ptr_of_lookup hcontents
          have hobject : h[addr]? = some (.bignum bn) := hcontents
          simp only [signCell, hobject, Val.ptr.injEq, Option.some.injEq]
          by_cases heq : addr = i
          · subst heq
            simp [hobject, negateObj, negateCell]
          · simp [heq]
    | ratio hratio =>
      rename_i num den x y
      cases v with
      | ptr addr =>
        have hobject : h[addr]? = some (.ratio num den) := hratio.lookup
        have hlt : addr < h.length := (List.getElem?_eq_some_iff.mp hobject).1
        refine ⟨.ptr addr, (h.flip num).set addr (.ratio (negateVal num) den), ?_, .inl rfl,
          by simp, ?_⟩
        · refine (bind_run (numberType_ratio hratio.lookup)).trans ?_
          refine (bind_run (readRatio_run hratio.lookup)).trans ?_
          refine (bind_run (sexpNegateExact_run num h)).trans ?_
          exact bind_run (writeObj_run (by simpa using hlt) _)
        · intro i
          have hcontents := hratio.num.1
          cases num with
          | fixnum n =>
            simp only [signCell, hobject]
            by_cases hi : addr = i
            · subst hi
              rw [getElem?_set_self (by simpa using hlt)]
              -- the least fixnum is its own negation and is left as it is
              by_cases hmin : n = sexpMakeFixnum sexpMinFixnum
              · rw [if_pos hmin, if_neg (by simp), hobject, negateVal,
                  sexpFxNeg_min (by rw [hmin]; decide)]
              · simp [hmin, hobject, negateVal, negateCell]
            · rw [getElem?_set_ne hi]
              split <;> simp [hi, Heap.flip]
          | ptr k =>
            have hk : k ≠ addr := by
              rintro rfl
              exact ne_ptr_of_integer hratio.lookup hcontents rfl
            simp only [signCell, hobject, Option.some.injEq]
            by_cases hi : addr = i
            · subst hi
              rw [getElem?_set_self (by simpa using hlt), if_neg hk, hobject]
              rfl
            · rw [getElem?_set_ne hi, getElem?_flip]
              simp only [Val.ptr.injEq]
              split
              · rename_i hki
                subst hki
                cases x with
                | fixnum n => simp [integer?_eq_some_fixnum_iff] at hcontents
                | bignum bn =>
                  rw [integer?_eq_some_bignum_iff] at hcontents
                  have hbn : h[k]? = some (.bignum bn) := hcontents
                  simp [hbn, negateObj, negateCell]
              · rfl
          | exception message => simp [Heap.integer?, Heap.lookup] at hcontents
          | void => simp [Heap.integer?, Heap.lookup] at hcontents
      | _ =>
        have hlookup := hratio.lookup
        simp [Heap.lookup] at hlookup
  | flonum hlookup hfresh =>
    rename_i x
    obtain ⟨addr, rfl⟩ := Heap.ptr_of_lookup hlookup
    have hobject : h[addr]? = some (.flonum x) := hlookup
    have hlt : addr < h.length := (List.getElem?_eq_some_iff.mp hobject).1
    refine ⟨.ptr addr, h.set addr (.flonum (flo.neg x)), ?_, .inl rfl, by simp, ?_⟩
    · refine (bind_run (numberType_flonum hlookup)).trans ?_
      show sexpNegate flo (.ptr addr) h = _
      simp only [sexpNegate, hlookup, writeObj_run hlt]
      rfl
    · intro i
      simp only [signCell, hobject, Option.some.injEq]
      by_cases hi : addr = i
      · subst hi
        rw [getElem?_set_self hlt, if_pos rfl, hobject]
        rfl
      · rw [getElem?_set_ne hi, if_neg hi]

theorem sexpFxNeg_ne_min {n : Fixnum} (hne : n ≠ sexpMakeFixnum sexpMinFixnum) :
    sexpFxNeg n ≠ sexpMakeFixnum sexpMinFixnum := by
  have hbounds := n.bounds
  have hmin : (sexpMakeFixnum sexpMinFixnum).val = -2 ^ 62 := by decide
  have hval : n.val ≠ -2 ^ 62 := fun heq => hne (Fixnum.ext (heq.trans hmin.symm))
  intro heq
  have hneg := congrArg Fixnum.val heq
  rw [sexpFxNeg_val n hval, hmin] at hneg
  omega

theorem Negates.signCell_eq {target : Option ℕ} (hnegates : Negates flo h h' target) (v : Val) :
    signCell h' v = signCell h v := by
  cases v with
  | ptr addr =>
    have hobject := hnegates.2 addr
    by_cases htarget : target = some addr
    · rw [if_pos htarget] at hobject
      simp only [signCell, hobject]
      cases h[addr]? with
      | none => rfl
      | some object =>
        cases object with
        | ratio num den =>
          cases num with
          | fixnum n =>
            simp only [Option.map_some, negateCell]
            by_cases hmin : n = sexpMakeFixnum sexpMinFixnum
            · rw [if_pos hmin, if_pos]
              rw [sexpFxNeg_min (by rw [hmin]; decide), hmin]
            · rw [if_neg hmin, if_neg (sexpFxNeg_ne_min hmin)]
          | _ => rfl
        | _ => rfl
    · rw [if_neg htarget] at hobject
      simp only [signCell, hobject]
  | _ => rfl

theorem sameShape_negateCell (object : Obj F) : SameShape object (negateCell flo object) := by
  cases object with
  | bignum bn => rfl
  | flonum x => trivial
  | complex real imag => trivial
  | ratio num den =>
    cases num with
    | fixnum n => exact ⟨rfl, .inr ⟨⟨n, rfl⟩, ⟨_, rfl⟩⟩⟩
    | _ => exact ⟨rfl, .inl rfl⟩

theorem Negates.preserves {target : Option ℕ} (hnegates : Negates flo h h' target)
    (hnew : ∀ i, target = some i → bound ≤ i) : Preserves bound h h' where
  length := hnegates.1.ge
  below i hi := by
    rw [hnegates.2 i, if_neg]
    intro htarget
    exact absurd (hnew i htarget) (by omega)
  shape i object hobject := by
    rw [hnegates.2 i, hobject]
    split
    · exact ⟨_, rfl, sameShape_negateCell flo object⟩
    · exact ⟨_, rfl, SameShape.refl object⟩

end Negation

/-! ## Copying -/

/-- `v'` is `v`, or a copy of the flonum or bignum that `v` is. -/
def CopyOf (h h' : Heap F) (v v' : Val) : Prop :=
  v' = v ∨ ∃ object, h.lookup v = some object ∧ h'.lookup v' = some object ∧ Fresh h.length v' ∧
    ((∃ x, object = .flonum x) ∨ ∃ bn, object = .bignum bn)

theorem copyPart_run (hv : Real bound h v) :
    Returns (copyPart v) h fun v' h' => Extends h h' ∧ CopyOf h h' v v' := by
  cases hv with
  | exact hwide =>
    obtain ⟨m, d, hholds⟩ := hwide
    cases hholds with
    | integer hx =>
      rename_i x
      refine Returns.of_bind_run (numberType_integer hx.1) ?_
      cases x with
      | fixnum n => exact Returns.pure ⟨Extends.refl h, .inl rfl⟩
      | bignum bn =>
        refine Returns.of_bind_run (readInt_run hx.1) ?_
        have hrun : allocInt (bignum bn) h = some (.ptr h.length, h ++ [.bignum bn]) := rfl
        refine Returns.of_run hrun ⟨Extends.append h _, .inr ⟨.bignum bn,
          integer?_eq_some_bignum_iff.mp hx.1, ?_, le_refl h.length, .inr ⟨bn, rfl⟩⟩⟩
        simp [Heap.lookup]
    | ratio hratio =>
      refine Returns.of_bind_run (numberType_ratio hratio.lookup) ?_
      exact Returns.pure ⟨Extends.refl h, .inl rfl⟩
  | flonum hlookup hfresh =>
    rename_i x
    refine Returns.of_bind_run (numberType_flonum hlookup) ?_
    refine Returns.of_bind_run (readFlonum_run hlookup) ?_
    have hrun : sexpMakeFlonum x h = some (.ptr h.length, h ++ [.flonum x]) := rfl
    refine Returns.of_run hrun ⟨Extends.append h _, .inr ⟨.flonum x, hlookup, ?_, le_refl h.length,
      .inl ⟨x, rfl⟩⟩⟩
    simp [Heap.lookup]

/-- The state `sexp_complex_copy` leaves: the parts at the new address `h.length`,
copies of them in the operand. -/
structure Copied (h h' : Heap F) (k : ℕ) (real imag real' imag' : Val) : Prop where
  length : h.length < h'.length
  copy : h'[h.length]? = some (.complex real imag)
  operand : h'[k]? = some (.complex real' imag')
  frame : ∀ i < h.length, i ≠ k → h'[i]? = h[i]?
  real : CopyOf h h' real real'
  imag : CopyOf h h' imag imag'

theorem Copied.preserves {k : ℕ} {real imag real' imag' : Val}
    (hcopied : Copied h h' k real imag real' imag')
    (hk : h[k]? = some (.complex real imag)) (hbound : bound ≤ k) : Preserves bound h h' where
  length := hcopied.length.le
  below i hi := by
    have hlt : k < h.length := (List.getElem?_eq_some_iff.mp hk).1
    exact hcopied.frame i (by omega) (by omega)
  shape i object hobject := by
    by_cases hi : i = k
    · subst hi
      obtain rfl := Option.some.inj (hk.symm.trans hobject)
      exact ⟨_, hcopied.operand, trivial⟩
    · refine ⟨object, ?_, SameShape.refl object⟩
      rw [hcopied.frame i (List.getElem?_eq_some_iff.mp hobject).1 hi, hobject]

theorem sexpComplexCopy_run {k : ℕ} {real imag : Val}
    (hc : IsComplex bound h (.ptr k) real imag) :
    Returns (sexpComplexCopy (.ptr k)) h fun tmp h' =>
      tmp = .ptr h.length ∧ ∃ real' imag', Copied h h' k real imag real' imag' := by
  have hk : h[k]? = some (.complex real imag) := hc.lookup
  have hlt : k < h.length := (List.getElem?_eq_some_iff.mp hk).1
  let h₁ : Heap F := h ++ [.complex real imag]
  have hext₁ : Extends h h₁ := Extends.append h _
  have hlength₁ : h₁.length = h.length + 1 := by simp [h₁]
  have hcopy₁ : h₁[h.length]? = some (.complex real imag) := by simp [h₁]
  refine Returns.of_bind_run (readComplex_run hc.lookup) ?_
  refine Returns.of_bind_run
    (show sexpMakeComplex real imag h = some (.ptr h.length, h₁) from rfl) ?_
  refine (copyPart_run (hc.real.of_extends hext₁)).bind ?_
  rintro real' h₂ ⟨hext₂, hreal'⟩
  have hle₂ := hext₂.1
  let h₃ : Heap F := h₂.set k (.complex real' imag)
  refine Returns.of_bind_run (writeObj_run (show k < h₂.length by omega) _) ?_
  have hpres₃ : Preserves 0 h₁ h₃ := by
    refine ⟨by simp [h₃, hext₂.1], by simp, fun i object hobject => ?_⟩
    by_cases hi : i = k
    · subst hi
      rw [hext₁.2 i hlt, hk] at hobject
      obtain rfl := Option.some.inj hobject
      exact ⟨_, getElem?_set_self (by omega), trivial⟩
    · refine ⟨object, ?_, SameShape.refl object⟩
      rw [getElem?_set_ne (Ne.symm hi), hext₂.2 i (List.getElem?_eq_some_iff.mp hobject).1, hobject]
  have himag₃ : Real bound h₃ imag := (hc.imag.of_extends hext₁).of_preserves hpres₃
  refine (copyPart_run himag₃).bind ?_
  rintro imag' h₄ ⟨hext₄, himag'⟩
  have hlength₃ : h₃.length = h₂.length := by simp [h₃]
  have hle₄ := hext₄.1
  refine Returns.of_bind_run (writeObj_run (show k < h₄.length by omega) _) ?_
  refine Returns.pure ⟨rfl, real', imag', ?_⟩
  -- what is not the operand is as it was when it was allocated
  have hframe : ∀ i ≠ k, i < h₂.length → (h₄.set k (.complex real' imag'))[i]? = h₂[i]? := by
    intro i hi hi₂
    rw [getElem?_set_ne (Ne.symm hi), hext₄.2 i (by omega), getElem?_set_ne (Ne.symm hi)]
  have hframe₀ : ∀ i < h.length, h₂[i]? = h[i]? := by
    intro i hi
    rw [hext₂.2 i (by omega), hext₁.2 i hi]
  refine ⟨by simp; omega, ?_, getElem?_set_self (by omega), ?_, ?_, ?_⟩
  · rw [hframe _ (by omega) (by omega), hext₂.2 _ (by omega), hcopy₁]
  · intro i hi hik
    rw [hframe i hik (by omega), hframe₀ i hi]
  · rcases hreal' with heq | ⟨object, hobject, hobject', hfresh, hleaf⟩
    · exact .inl heq
    obtain ⟨addr, rfl⟩ := Heap.ptr_of_lookup hobject'
    obtain ⟨j, rfl⟩ := Heap.ptr_of_lookup hobject
    have haddr : h₁.length ≤ addr := hfresh
    have hlt' : addr < h₂.length := (List.getElem?_eq_some_iff.mp hobject').1
    obtain ⟨object₀, hobject₀, -⟩ := hc.real.getElem?
    have hj : j < h.length := (List.getElem?_eq_some_iff.mp hobject₀).1
    refine .inr ⟨object, ?_, ?_, hext₁.1.trans hfresh, hleaf⟩
    · exact (hext₁.2 j hj).symm.trans hobject
    · exact (hframe addr (by omega) hlt').trans hobject'
  · rcases himag' with heq | ⟨object, hobject, hobject', hfresh, hleaf⟩
    · exact .inl heq
    obtain ⟨addr, rfl⟩ := Heap.ptr_of_lookup hobject'
    obtain ⟨j, rfl⟩ := Heap.ptr_of_lookup hobject
    have haddr : h₃.length ≤ addr := hfresh
    have hlt' : addr < h₄.length := (List.getElem?_eq_some_iff.mp hobject').1
    obtain ⟨object₀, hobject₀, hnot⟩ := hc.imag.getElem?
    have hj : j < h.length := (List.getElem?_eq_some_iff.mp hobject₀).1
    have hjk : j ≠ k := by
      rintro rfl
      exact hnot _ _ (Option.some.inj (hobject₀.symm.trans hk))
    refine .inr ⟨object, ?_, ?_, (hfresh.mono (by omega)), hleaf⟩
    · have hsame : h₃[j]? = h[j]? := by
        rw [getElem?_set_ne (Ne.symm hjk), hframe₀ j hj]
      exact hsame.symm.trans hobject
    · show (h₄.set k (.complex real' (.ptr addr)))[addr]? = _
      rw [getElem?_set_ne (by omega)]
      exact hobject'

end ChibiScheme
