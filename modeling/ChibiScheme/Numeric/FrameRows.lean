import ChibiScheme.Numeric.Compare
import ChibiScheme.Numeric.ComplexSub

/-!
# Which calls leave the numbers in the heap alone

A numeric object denotes a number (`Heap.number?`).  A call keeps its frame if it
returns and every object that was there before denotes the number it denoted
(`KeepsFrame`).

Most rows of the tower only allocate.  Two do not.  `sexp_div` puts two integer
operands into a new ratio and normalizes it, which flips the sign of both where
they are when the divisor is negative.  The complex rows of `sexp_sub` flip the
signs of the parts of one operand.  `FrameSafe` is the exact condition under
which that goes unnoticed.
-/

namespace ChibiScheme

open Stateful ExactInt

variable {F : Type} {h h' : Heap F} {v a b : Val} {x y : ExactInt} {p q : ℚ}

/-! ## What an object denotes -/

/-- A real number. -/
inductive Scalar (F : Type) where
  | exact (q : ℚ)
  | flonum (x : F)

/-- A number with its parts. -/
inductive Number (F : Type) where
  | scalar (s : Scalar F)
  | complex (real imag : Scalar F)

/-- The real number a value denotes. -/
def Heap.scalar? (h : Heap F) (v : Val) : Option (Scalar F) :=
  match h.integer? v with
  | some x => some (.exact x.toInt)
  | none =>
    match h.lookup v with
    | some (.flonum x) => some (.flonum x)
    | some (.ratio num den) =>
      match h.integer? num, h.integer? den with
      | some x, some y => some (.exact (x.toInt / y.toInt))
      | _, _ => none
    | _ => none

/-- The number at an address, if its parts are real. -/
def Heap.number? (h : Heap F) (v : Val) : Option (Number F) :=
  match h.lookup v with
  | some (.complex real imag) =>
    match h.scalar? real, h.scalar? imag with
    | some r, some i => some (.complex r i)
    | _, _ => none
  | _ => (h.scalar? v).map .scalar

/-- `v` is a real number in canonical representation. -/
def RealPart (h : Heap F) (v : Val) : Prop :=
  (∃ q, RepQ h v q) ∨ ∃ x, h.lookup v = some (.flonum x)

/-- Every object of the heap is a number in canonical representation. -/
def Heap.WellFormed (h : Heap F) : Prop :=
  ∀ (i : ℕ) (object : Obj F), h[i]? = some object →
    match object with
    | .flonum _ => True
    | .bignum bn => (bignum bn).Canonical
    | .ratio _ _ => ∃ q, RepRatio h (.ptr i) q
    | .complex real imag => RealPart h real ∧ RealPart h imag

/-- An exact number: a rational, or a complex number with rational parts. -/
inductive ExactNumber (h : Heap F) (v : Val) : Prop
  | rational {q : ℚ} (hv : RepQ h v q) : ExactNumber h v
  | complex {real imag : Val} {p q : ℚ} (hlookup : h.lookup v = some (.complex real imag))
      (hreal : RepQ h real p) (himag : RepQ h imag q) : ExactNumber h v

/-! ## Heaps that agree -/

/-- `h'` has every object of `h` that is not complex. -/
def AgreeOnReals (h h' : Heap F) : Prop :=
  ∀ (i : ℕ) (object : Obj F), h[i]? = some object → (∀ real imag, object ≠ .complex real imag) →
    h'[i]? = some object

theorem Extends.agree (hextends : Extends h h') : AgreeOnReals h h' := by
  intro i object hobject _
  rw [hextends.2 i (List.getElem?_eq_some_iff.mp hobject).1, hobject]

theorem AgreeOnReals.lookup (hagree : AgreeOnReals h h') {object : Obj F}
    (hv : h.lookup v = some object) (hnot : ∀ real imag, object ≠ .complex real imag) :
    h'.lookup v = some object := by
  obtain ⟨addr, rfl⟩ := Heap.ptr_of_lookup hv
  exact hagree addr object hv hnot

theorem AgreeOnReals.integer (hagree : AgreeOnReals h h') (hx : h.integer? v = some x) :
    h'.integer? v = some x := by
  cases x with
  | fixnum n =>
    rw [integer?_eq_some_fixnum_iff] at hx ⊢
    exact hx
  | bignum bn =>
    rw [integer?_eq_some_bignum_iff] at hx ⊢
    exact hagree.lookup hx (by simp)

theorem scalar?_of_integer (hx : h.integer? v = some x) : h.scalar? v = some (.exact x.toInt) := by
  simp only [Heap.scalar?, hx]

theorem integer?_of_ratio {num den : Val} (hv : h.lookup v = some (.ratio num den)) :
    h.integer? v = none := by
  cases hx : h.integer? v with
  | none => rfl
  | some x => exact absurd hv (lookup_ne_ratio hx)

theorem scalar?_of_ratio {num den : Val} (hv : h.lookup v = some (.ratio num den))
    (hx : h.integer? num = some x) (hy : h.integer? den = some y) :
    h.scalar? v = some (.exact (x.toInt / y.toInt)) := by
  simp only [Heap.scalar?, integer?_of_ratio hv, hv, hx, hy]

theorem scalar?_of_flonum {z : F} (hv : h.lookup v = some (.flonum z)) :
    h.scalar? v = some (.flonum z) := by
  have hnone : h.integer? v = none := by
    obtain ⟨addr, rfl⟩ := Heap.ptr_of_lookup hv
    simp only [Heap.integer?, hv]
  simp only [Heap.scalar?, hnone, hv]

theorem RepQ.scalar (hv : RepQ h v q) : h.scalar? v = some (.exact q) := by
  rcases hv with ⟨n, ⟨x, hx, -, rfl⟩, rfl⟩ | ⟨num, den, m, d, hlookup, ⟨x, hx, -, rfl⟩,
    ⟨y, hy, -, rfl⟩, -, -, rfl⟩
  · exact scalar?_of_integer hx
  · exact scalar?_of_ratio hlookup hx hy

theorem RealPart.scalar_eq (hagree : AgreeOnReals h h') (hv : RealPart h v) :
    h'.scalar? v = h.scalar? v := by
  rcases hv with ⟨q, ⟨n, ⟨x, hx, -⟩, -⟩ | ⟨num, den, m, d, hlookup, ⟨x, hx, -⟩, ⟨y, hy, -⟩, -⟩⟩ |
    ⟨z, hz⟩
  · rw [scalar?_of_integer hx, scalar?_of_integer (hagree.integer hx)]
  · rw [scalar?_of_ratio hlookup hx hy, scalar?_of_ratio (hagree.lookup hlookup (by simp))
      (hagree.integer hx) (hagree.integer hy)]
  · rw [scalar?_of_flonum hz, scalar?_of_flonum (hagree.lookup hz (by simp))]

theorem number?_eq_of_agree (hwell : h.WellFormed) (hagree : AgreeOnReals h h') {i : ℕ}
    {object : Obj F} (hobject : h[i]? = some object)
    (hnot : ∀ real imag, object ≠ .complex real imag) :
    h'.number? (.ptr i) = h.number? (.ptr i) := by
  have hobject' := hagree i object hobject hnot
  have hpart : RealPart h (.ptr i) := by
    have hcanonical := hwell i object hobject
    cases object with
    | flonum z => exact .inr ⟨z, hobject⟩
    | bignum bn =>
      exact .inl ⟨_, .inl ⟨_, ⟨_, integer?_eq_some_bignum_iff.mpr hobject, hcanonical, rfl⟩, rfl⟩⟩
    | ratio num den =>
      obtain ⟨q, hq⟩ := hcanonical
      exact .inl ⟨q, .inr hq⟩
    | complex real imag => exact absurd rfl (hnot real imag)
  have hscalar := hpart.scalar_eq hagree
  have hplain : ∀ {g : Heap F}, g[i]? = some object →
      g.number? (.ptr i) = (g.scalar? (.ptr i)).map .scalar := by
    intro g hg
    have hlookup : g.lookup (.ptr i) = some object := hg
    cases object with
    | complex real imag => exact absurd rfl (hnot real imag)
    | _ => simp only [Heap.number?, hlookup]
  rw [hplain hobject, hplain hobject', hscalar]

theorem number?_of_complex {real imag : Val} {r s : Scalar F}
    (hv : h.lookup v = some (.complex real imag)) (hr : h.scalar? real = some r)
    (hs : h.scalar? imag = some s) : h.number? v = some (.complex r s) := by
  simp only [Heap.number?, hv, hr, hs]

theorem RealPart.exists_scalar (hv : RealPart h v) : ∃ s, h.scalar? v = some s := by
  rcases hv with ⟨q, hq⟩ | ⟨z, hz⟩
  · exact ⟨_, hq.scalar⟩
  · exact ⟨_, scalar?_of_flonum hz⟩

/-- Every object denotes what it did. -/
def SameNumbers (h h' : Heap F) : Prop :=
  ∀ i < h.length, h'.number? (.ptr i) = h.number? (.ptr i)

theorem Extends.sameNumbers (hwell : h.WellFormed) (hextends : Extends h h') :
    SameNumbers h h' := by
  intro i hi
  obtain ⟨object, hobject⟩ : ∃ object, h[i]? = some object := ⟨h[i], List.getElem?_eq_getElem hi⟩
  by_cases hcomplex : ∃ real imag, object = .complex real imag
  · obtain ⟨real, imag, rfl⟩ := hcomplex
    obtain ⟨hreal, himag⟩ := hwell i _ hobject
    obtain ⟨r, hr⟩ := hreal.exists_scalar
    obtain ⟨s, hs⟩ := himag.exists_scalar
    have hlookup' : h'.lookup (.ptr i) = some (.complex real imag) :=
      lookup_of_extends (v := .ptr i) hextends hobject
    rw [number?_of_complex (v := .ptr i) hobject hr hs, number?_of_complex hlookup'
      ((hreal.scalar_eq hextends.agree).trans hr) ((himag.scalar_eq hextends.agree).trans hs)]
  · refine number?_eq_of_agree hwell hextends.agree hobject ?_
    intro real imag heq
    exact hcomplex ⟨real, imag, heq⟩

theorem number?_negate_ne {i : ℕ} {bn : Bignum} (hbn : h[i]? = some (.bignum bn))
    (hcanonical : (bignum bn).Canonical) (hbn' : h'[i]? = some (.bignum bn.negate)) :
    h'.number? (.ptr i) ≠ h.number? (.ptr i) := by
  have hnumber : ∀ {g : Heap F} {c : Bignum}, g[i]? = some (.bignum c) →
      g.number? (.ptr i) = some (.scalar (.exact c.toInt)) := by
    intro g c hc
    have hlookup : g.lookup (.ptr i) = some (.bignum c) := hc
    have hscalar := scalar?_of_integer (integer?_eq_some_bignum_iff.mpr hlookup)
    simp only [Heap.number?, hlookup, hscalar]
    rfl
  rw [hnumber hbn, hnumber hbn']
  intro heq
  simp only [Option.some.injEq, Number.scalar.injEq, Scalar.exact.injEq, Int.cast_inj,
    Bignum.toInt_negate] at heq
  have hwide : 2 ^ 62 ≤ bn.magnitude := hcanonical.wide
  have habs := bn.natAbs_toInt
  omega

/-! ## Rows that only allocate

`sexp_add` and `sexp_mul` on exact operands, `sexp_div` on operands that are not
both integers, `sexp_quotient`, `sexp_remainder` and `sexp_compare`: each leaves
every object of the heap as it was. -/

/-! ## Operands -/

/-- The types of exact real numbers. -/
inductive ExactType : NumType → Prop
  | fix : ExactType .fix
  | big : ExactType .big
  | rat : ExactType .rat

theorem WideQ.numberType (hv : WideQ h v) :
    ∃ type, numberType v h = some (type, h) ∧ ExactType type := by
  obtain ⟨m, d, hholds⟩ := hv
  cases hholds with
  | integer hx =>
    rename_i x
    refine ⟨_, numberType_integer hx.1, ?_⟩
    cases x
    · exact .fix
    · exact .big
  | ratio hratio => exact ⟨_, numberType_ratio hratio.lookup, .rat⟩

theorem ExactNumber.operand (hv : ExactNumber h v) :
    WideQ h v ∨ ∃ real imag, h.lookup v = some (.complex real imag) ∧ WideQ h real ∧
      WideQ h imag := by
  cases hv with
  | rational hq => exact .inl ⟨_, _, hq.holds⟩
  | complex hlookup hreal himag =>
    exact .inr ⟨_, _, hlookup, ⟨_, _, hreal.holds⟩, ⟨_, _, himag.holds⟩⟩

theorem Preserves.extends (hpreserves : Preserves h.length h h') : Extends h h' :=
  ⟨hpreserves.length, hpreserves.below⟩

section Rows

variable (flo : FlonumOps F) (depth : ℕ) {real imag : Val}

private theorem isComplex_of_wide {bound : ℕ} (hlookup : h.lookup v = some (.complex real imag))
    (hreal : WideQ h real) (himag : WideQ h imag) : IsComplex bound h v real imag :=
  ⟨hlookup, .exact hreal, .exact himag⟩

/-- The routine for two complex numbers changes no object below `bound`. -/
def KeepsComplex (bound : ℕ) (routine : Val → Val → NumM F Val) : Prop :=
  ∀ {h : Heap F} {a b areal aimag breal bimag : Val}, IsComplex bound h a areal aimag →
    IsComplex bound h b breal bimag → bound ≤ h.length →
    Returns (routine a b) h fun _ h' => Preserves bound h h'

private theorem wrapComplex {routine : Val → Val → NumM F Val} {c : Val}
    (hroutine : KeepsComplex h.length routine) (hv : WideQ h v)
    (hc : IsComplex h.length h c real imag) :
    Returns (do routine (← sexpMakeComplex v .zero) c) h (fun _ h' => Extends h h') ∧
      Returns (do routine c (← sexpMakeComplex v .zero)) h fun _ h' => Extends h h' := by
  have hext : Extends h (h ++ [.complex v .zero]) := Extends.append h _
  have hwrapped := wrap_isComplex (.exact hv : Real h.length h v)
  have hmake : sexpMakeComplex v .zero h = some (.ptr h.length, h ++ [.complex v .zero]) := rfl
  constructor
  · refine Returns.of_bind_run hmake ?_
    refine (hroutine hwrapped (hc.of_extends hext) hext.1).mono ?_
    exact fun _ _ hpreserves => ((hext.preserves le_rfl).trans hpreserves).extends
  · refine Returns.of_bind_run hmake ?_
    refine (hroutine (hc.of_extends hext) hwrapped hext.1).mono ?_
    exact fun _ _ hpreserves => ((hext.preserves le_rfl).trans hpreserves).extends

private theorem ordered_frame {op routine : Val → Val → NumM F Val}
    {table : NumType → NumType → NumM F Val} (hroutine : KeepsComplex h.length routine)
    (hop : ∀ {ta tb : NumType}, numberType a h = some (ta, h) → numberType b h = some (tb, h) →
      op a b h = table ta tb h)
    (hrational : WideQ h a → WideQ h b → Returns (op a b) h fun _ h' => Extends h h')
    (hleft : ∀ {type : NumType}, ExactType type →
      table type .cpx h = (do routine (← sexpMakeComplex a .zero) b : NumM F Val) h)
    (hright : ∀ {type : NumType}, ExactType type →
      table .cpx type h = (do routine (← sexpMakeComplex b .zero) a : NumM F Val) h)
    (hboth : table .cpx .cpx h = routine a b h) (ha : ExactNumber h a) (hb : ExactNumber h b) :
    Returns (op a b) h fun _ h' => Extends h h' := by
  rcases ha.operand with hwa | ⟨areal, aimag, hla, hra, hia⟩
  · rcases hb.operand with hwb | ⟨breal, bimag, hlb, hrb, hib⟩
    · exact hrational hwa hwb
    · obtain ⟨ta, hta, htypeA⟩ := hwa.numberType
      obtain ⟨r, h', hrun, hext⟩ := (wrapComplex hroutine hwa (isComplex_of_wide hlb hrb hib)).1
      exact ⟨r, h', ((hop hta (numberType_complex hlb)).trans (hleft htypeA)).trans hrun, hext⟩
  · have hca : IsComplex h.length h a areal aimag := isComplex_of_wide hla hra hia
    rcases hb.operand with hwb | ⟨breal, bimag, hlb, hrb, hib⟩
    · obtain ⟨tb, htb, htypeB⟩ := hwb.numberType
      obtain ⟨r, h', hrun, hext⟩ := (wrapComplex hroutine hwb hca).1
      exact ⟨r, h', ((hop (numberType_complex hla) htb).trans (hright htypeB)).trans hrun, hext⟩
    · obtain ⟨r, h', hrun, hpreserves⟩ := hroutine hca (isComplex_of_wide hlb hrb hib) le_rfl
      have hrow := (hop (numberType_complex hla) (numberType_complex hlb)).trans hboth
      exact ⟨r, h', hrow.trans hrun, hpreserves.extends⟩

theorem add_frame (ha : ExactNumber h a) (hb : ExactNumber h b) :
    Returns ((arith flo (depth + 3)).add a b) h fun _ h' => Extends h h' := by
  have hroutine : KeepsComplex h.length (sexpComplexAdd (arith flo (depth + 2))) :=
    fun ha hb hle =>
      (sexpComplexAdd_run flo depth ha hb hle).mono fun _ _ hpost => hpost.1.preserves hle
  refine ordered_frame hroutine (fun hta htb => (bind_run hta).trans (bind_run htb)) ?_
    (fun htype => by cases htype <;> rfl) (fun htype => by cases htype <;> rfl) rfl ha hb
  rintro ⟨m, d, hm⟩ ⟨m', d', hm'⟩
  exact (sexpAdd_run flo (depth + 1) hm hm').mono fun _ _ hreduces => hreduces.frame

theorem mul_frame (ha : ExactNumber h a) (hb : ExactNumber h b) :
    Returns ((arith flo (depth + 3)).mul a b) h fun _ h' => Extends h h' := by
  have hroutine : KeepsComplex h.length (sexpComplexMul (arith flo (depth + 2))) :=
    fun ha hb hle =>
      (sexpComplexMul_run flo depth ha hb hle).mono fun _ _ hext => hext.preserves hle
  refine ordered_frame hroutine (fun hta htb => (bind_run hta).trans (bind_run htb)) ?_
    (fun htype => by cases htype <;> rfl) (fun htype => by cases htype <;> rfl) rfl ha hb
  rintro ⟨m, d, hm⟩ ⟨m', d', hm'⟩
  exact (sexpMul_run flo (depth + 1) hm hm').mono fun _ _ hreduces => hreduces.frame

theorem wrapFlonum {c : Val} (hv : WideQ h v) (hc : IsComplex h.length h c real imag) :
    ∃ x : F, sexpToDouble flo v h = some (x, h) ∧
      Extends h ((h ++ [.flonum x]) ++ [.complex (.ptr h.length) .zero]) ∧
      IsComplex h.length ((h ++ [.flonum x]) ++ [.complex (.ptr h.length) .zero])
        (.ptr (h ++ [Obj.flonum x]).length) (.ptr h.length) .zero ∧
      IsComplex h.length ((h ++ [.flonum x]) ++ [.complex (.ptr h.length) .zero]) c real imag := by
  obtain ⟨x, hx⟩ := sexpToDouble_run flo (.exact hv : Real 0 h v)
  have hext₁ : Extends h (h ++ [.flonum x]) := Extends.append h _
  have hext₂ : Extends (h ++ [.flonum x]) ((h ++ [.flonum x]) ++ [.complex (.ptr h.length) .zero]) :=
    Extends.append _ _
  have hlookup : (h ++ [Obj.flonum x] : Heap F).lookup (.ptr h.length) = some (.flonum x) := by
    simp [Heap.lookup]
  have hflonum : Real h.length (h ++ [.flonum x]) (.ptr h.length) :=
    .flonum hlookup (le_refl h.length)
  have hwrapped := wrap_isComplex hflonum
  exact ⟨x, hx, hext₁.trans hext₂, hwrapped, hc.of_extends (hext₁.trans hext₂)⟩

theorem div_frame (ha : ExactNumber h a) (hb : ExactNumber h b)
    (hintegers : ¬ ((∃ x, WideInt h a x) ∧ ∃ y, WideInt h b y)) :
    Returns ((arith flo (depth + 3)).div a b) h fun _ h' => Extends h h' := by
  have hroutine : KeepsComplex h.length (sexpComplexDiv (arith flo (depth + 2))) :=
    fun ha hb hle => sexpComplexDiv_run flo depth ha hb hle
  rcases ha.operand with hwa | ⟨areal, aimag, hla, hra, hia⟩
  · obtain ⟨ta, hta, htypeA⟩ := hwa.numberType
    rcases hb.operand with hwb | ⟨breal, bimag, hlb, hrb, hib⟩
    · obtain ⟨m, d, hm⟩ := hwa
      obtain ⟨m', d', hm'⟩ := hwb
      exact (div_ratio_preserves flo (depth + 1) hm hm' hintegers le_rfl).mono
        fun _ _ hpreserves => hpreserves.extends
    · have hcb : IsComplex h.length h b breal bimag := isComplex_of_wide hlb hrb hib
      refine Returns.of_bind_run hta (Returns.of_bind_run (numberType_complex hlb) ?_)
      have hwrapped := (wrapComplex hroutine hwa hcb).1
      cases htypeA with
      | fix => exact hwrapped
      | big => exact hwrapped
      | rat =>
        obtain ⟨x, hx, hext, hflonum, hcb'⟩ := wrapFlonum flo hwa hcb
        refine Returns.of_bind_run hx (Returns.of_bind_run rfl (Returns.of_bind_run rfl ?_))
        refine (hroutine hflonum hcb' hext.1).mono ?_
        exact fun _ _ hpreserves => ((hext.preserves le_rfl).trans hpreserves).extends
  · have hca : IsComplex h.length h a areal aimag := isComplex_of_wide hla hra hia
    rcases hb.operand with hwb | ⟨breal, bimag, hlb, hrb, hib⟩
    · obtain ⟨tb, htb, htypeB⟩ := hwb.numberType
      refine Returns.of_bind_run (numberType_complex hla) (Returns.of_bind_run htb ?_)
      have hwrapped := (wrapComplex hroutine hwb hca).2
      cases htypeB with
      | fix => exact hwrapped
      | big => exact hwrapped
      | rat =>
        obtain ⟨x, hx, hext, hflonum, hca'⟩ := wrapFlonum flo hwb hca
        refine Returns.of_bind_run hx (Returns.of_bind_run rfl (Returns.of_bind_run rfl ?_))
        refine (hroutine hca' hflonum hext.1).mono ?_
        exact fun _ _ hpreserves => ((hext.preserves le_rfl).trans hpreserves).extends
    · refine Returns.of_bind_run (numberType_complex hla)
        (Returns.of_bind_run (numberType_complex hlb) ?_)
      exact (hroutine hca (isComplex_of_wide hlb hrb hib) le_rfl).mono
        fun _ _ hpreserves => hpreserves.extends

/-! ## Quotient, remainder, comparison -/

private theorem sexpZero_ne_sexpOne : sexpZero ≠ sexpOne := by decide

private theorem sexpBignumQuotRem_ne_none (a b : Bignum) : sexpBignumQuotRem a b ≠ none := by
  by_cases hb : b.magnitude = 0
  · rw [sexpBignumQuotRem_zero a hb]
    simp
  · obtain ⟨q, r, hresult, -⟩ := sexpBignumQuotRem_spec a hb
    rw [hresult]
    simp

theorem quotientInteger_eq_none_iff :
    quotientInteger x y = none ↔ (∃ n, x = fixnum n) ∧ y = fixnum sexpZero := by
  by_cases hone : y = fixnum sexpOne
  · simp [hone, quotientInteger, sexpZero_ne_sexpOne.symm]
  cases x with
  | fixnum m =>
    cases y with
    | fixnum n =>
      by_cases hzero : n = sexpZero
      · simp [quotientInteger, hzero, sexpZero_ne_sexpOne]
      · simp only [quotientInteger, if_neg hone, if_neg hzero]
        have hne := sexpBignumQuotRem_ne_none (sexpFixnumToBignum m) (sexpFixnumToBignum n)
        split <;> simp [quotientBigBig, hne, hzero]
    | bignum c => simp [quotientInteger]
  | bignum c =>
    have hne := sexpBignumQuotRem_ne_none c
    cases y with
    | fixnum n => simp [quotientInteger, hone, quotientBigBig, hne]
    | bignum e => simp [quotientInteger, quotientBigBig, hne]

theorem remainderInteger_eq_none_iff :
    remainderInteger x y = none ↔ (∃ n, x = fixnum n) ∧ y = fixnum sexpZero := by
  by_cases hone : y = fixnum sexpOne
  · simp [hone, remainderInteger, sexpZero_ne_sexpOne.symm]
  cases x with
  | fixnum m =>
    cases y with
    | fixnum n =>
      by_cases hzero : n = sexpZero
      · simp [remainderInteger, hzero, sexpZero_ne_sexpOne]
      · simp [remainderInteger, hone, hzero]
    | bignum c => simp [remainderInteger]
  | bignum c =>
    cases y with
    | fixnum n =>
      simp only [remainderInteger, if_neg hone]
      split <;> simp
    | bignum e => simp [remainderInteger, remainderBigBig, sexpBignumQuotRem_ne_none c e]

theorem allocResult_frame {result : Option IntResult} (hresult : result ≠ none) :
    Returns (allocResult result : NumM F Val) h fun _ h' => Extends h h' := by
  cases result with
  | none => exact absurd rfl hresult
  | some result =>
    cases result with
    | integer n =>
      obtain ⟨v, h', hrun, hext, -⟩ := allocInt_run n h
      exact ⟨v, h', hrun, hext⟩
    | exception message => exact Returns.pure (Extends.refl h)
    | void => exact Returns.pure (Extends.refl h)

theorem ExactNumber.numberType (hv : ExactNumber h v) :
    (∃ x, WideInt h v x ∧ ChibiScheme.numberType v h = some (x.numType, h)) ∨
      ChibiScheme.numberType v h = some (.rat, h) ∨ ChibiScheme.numberType v h = some (.cpx, h) := by
  cases hv with
  | rational hq =>
    obtain ⟨x, hx, -⟩ | ⟨num, den, x, y, hratio, -⟩ := hq.view
    · exact .inl ⟨x, hx, numberType_integer hx.1⟩
    · exact .inr (.inl (numberType_ratio hratio.lookup))
  | complex hlookup _ _ => exact .inr (.inr (numberType_complex hlookup))

theorem divisionTable_frame (op : ExactInt → ExactInt → Option IntResult)
    (self : Val → Val → NumM F Val) (isInteger : F → Bool) (ha : ExactNumber h a)
    (hb : ExactNumber h b) (hintegers : ¬ ((∃ x, WideInt h a x) ∧ ∃ y, WideInt h b y)) :
    Returns (divisionTable flo op self isInteger a b) h fun _ h' => Extends h h' := by
  have hpure : ∀ r : Val, Returns (pure r : NumM F Val) h fun _ h' => Extends h h' :=
    fun _ => Returns.pure (Extends.refl h)
  rcases ha.numberType with ⟨x, hx, hta⟩ | hta | hta <;>
    rcases hb.numberType with ⟨y, hy, htb⟩ | htb | htb <;>
    refine Returns.of_bind_run hta (Returns.of_bind_run htb ?_)
  · exact absurd ⟨⟨x, hx⟩, y, hy⟩ hintegers
  · cases x <;> exact hpure _
  · cases x <;> exact hpure _
  · cases y <;> exact hpure _
  · exact hpure _
  · exact hpure _
  · cases y <;> exact hpure _
  · exact hpure _
  · exact hpure _

private theorem zero_of_integers (hzero : ¬ ((∃ n, a = .fixnum n) ∧ b = .zero))
    (hx : h.integer? a = some x) (hy : h.integer? b = some y) :
    ¬ ((∃ n, x = fixnum n) ∧ y = fixnum sexpZero) := by
  rintro ⟨⟨n, rfl⟩, rfl⟩
  exact hzero ⟨⟨n, integer?_eq_some_fixnum_iff.mp hx⟩, integer?_eq_some_fixnum_iff.mp hy⟩

theorem quotient_frame (ha : ExactNumber h a) (hb : ExactNumber h b)
    (hzero : ¬ ((∃ n, a = .fixnum n) ∧ b = .zero)) :
    Returns ((arith flo (depth + 1)).quotient a b) h fun _ h' => Extends h h' := by
  by_cases hintegers : (∃ x, WideInt h a x) ∧ ∃ y, WideInt h b y
  · obtain ⟨⟨x, hx⟩, y, hy⟩ := hintegers
    have hrun : (arith flo (depth + 1)).quotient a b h = _ :=
      quotientTable_integer flo (arith flo depth) hx.1 hy.1
    by_cases hone : y = fixnum sexpOne
    · rw [if_pos hone] at hrun
      exact Returns.of_run hrun (Extends.refl h)
    · rw [if_neg hone] at hrun
      obtain ⟨r, h', hresult, hext⟩ := allocResult_frame (h := h) fun hnone =>
        zero_of_integers hzero hx.1 hy.1 (quotientInteger_eq_none_iff.mp hnone)
      exact Returns.of_run (hrun.trans hresult) hext
  · show Returns (quotientTable flo (arith flo depth) a b) h _
    unfold quotientTable
    split
    · exact Returns.pure (Extends.refl h)
    · exact divisionTable_frame flo _ _ _ ha hb hintegers

theorem remainder_frame (ha : ExactNumber h a) (hb : ExactNumber h b)
    (hzero : ¬ ((∃ n, a = .fixnum n) ∧ b = .zero)) :
    Returns ((arith flo (depth + 1)).remainder a b) h fun _ h' => Extends h h' := by
  by_cases hintegers : (∃ x, WideInt h a x) ∧ ∃ y, WideInt h b y
  · obtain ⟨⟨x, hx⟩, y, hy⟩ := hintegers
    have hrun : (arith flo (depth + 1)).remainder a b h = _ :=
      remainderTable_integer flo (arith flo depth) hx.1 hy.1
    obtain ⟨r, h', hresult, hext⟩ := allocResult_frame (h := h) fun hnone =>
      zero_of_integers hzero hx.1 hy.1 (remainderInteger_eq_none_iff.mp hnone)
    exact Returns.of_run (hrun.trans hresult) hext
  · show Returns (remainderTable flo (arith flo depth) a b) h _
    unfold remainderTable
    split
    · exact Returns.pure (Extends.refl h)
    · exact divisionTable_frame flo _ _ _ ha hb hintegers

theorem divide_zero (n : Fixnum) : (arith flo (depth + 1)).quotient (.fixnum n) .zero h = none ∧
    (arith flo (depth + 1)).remainder (.fixnum n) .zero h = none := by
  have hn : h.integer? (.fixnum n) = some (fixnum n) := rfl
  have hzero : h.integer? .zero = some (fixnum sexpZero) := rfl
  have hne : fixnum sexpZero ≠ fixnum sexpOne := by
    intro heq
    exact sexpZero_ne_sexpOne (ExactInt.fixnum.inj heq)
  constructor
  · refine (quotientTable_integer flo (arith flo depth) hn hzero).trans ?_
    rw [if_neg hne, quotientInteger_eq_none_iff.mpr ⟨⟨n, rfl⟩, rfl⟩]
    rfl
  · refine (remainderTable_integer flo (arith flo depth) hn hzero).trans ?_
    rw [remainderInteger_eq_none_iff.mpr ⟨⟨n, rfl⟩, rfl⟩]
    rfl

private theorem compareTable_complex {ta tb : NumType} (hta : numberType a h = some (ta, h))
    (htb : numberType b h = some (tb, h)) (hcpx : ta = .cpx ∨ tb = .cpx) (hnotA : ta ≠ .not)
    (hnotB : tb ≠ .not) :
    compareTable flo (arith flo depth) a b h =
      some (.exception "invalid type, expected Number", h) := by
  refine (bind_run hta).trans ((bind_run htb).trans ?_)
  have hrow : ∀ {v w : Val} {tv : NumType}, numberType v h = some (tv, h) →
      numberType w h = some (.cpx, h) → tv ≠ .not →
      compareOrdered flo (arith flo depth) v w h =
        some (.exception "invalid type, expected Number", h) := by
    intro v w tv htv htw hnot
    refine (bind_run htv).trans ((bind_run htw).trans ?_)
    cases tv <;> first | exact absurd rfl hnot | rfl
  by_cases hgt : ta.code > tb.code
  · rw [if_pos hgt]
    obtain rfl : ta = .cpx := by
      rcases hcpx with rfl | rfl
      · rfl
      · cases ta <;> simp [NumType.code] at hgt ⊢
    exact bind_run (hrow htb hta hnotB)
  · rw [if_neg hgt]
    obtain rfl : tb = .cpx := by
      rcases hcpx with rfl | rfl
      · cases tb <;> simp [NumType.code] at hgt ⊢
      · rfl
    exact hrow hta htb hnotA

theorem compare_frame (ha : ExactNumber h a) (hb : ExactNumber h b) :
    Returns ((arith flo (depth + 3)).compare a b) h fun _ h' => Extends h h' := by
  have htype : ∀ {w : Val}, ExactNumber h w →
      ∃ type, ChibiScheme.numberType w h = some (type, h) ∧ type ≠ .not := by
    intro w hw
    rcases hw.numberType with ⟨x, -, htype⟩ | htype | htype
    · refine ⟨_, htype, ?_⟩
      cases x <;> simp [ExactInt.numType]
    · exact ⟨_, htype, by simp⟩
    · exact ⟨_, htype, by simp⟩
  obtain ⟨ta, hta, hnotA⟩ := htype ha
  obtain ⟨tb, htb, hnotB⟩ := htype hb
  have hcomplex : ta = .cpx ∨ tb = .cpx →
      Returns ((arith flo (depth + 3)).compare a b) h fun _ h' => Extends h h' := fun hcpx =>
    Returns.of_run (compareTable_complex flo (depth + 2) hta htb hcpx hnotA hnotB) (Extends.refl h)
  have hcpx : ∀ {w real imag : Val} {type : NumType}, h.lookup w = some (.complex real imag) →
      numberType w h = some (type, h) → type = .cpx := by
    intro w real imag type hlookup htype
    exact (Prod.mk.inj (Option.some.inj (htype.symm.trans (numberType_complex hlookup)))).1
  cases ha with
  | complex hlookup _ _ => exact hcomplex (.inl (hcpx hlookup hta))
  | rational hp =>
    cases hb with
    | complex hlookup _ _ => exact hcomplex (.inr (hcpx hlookup htb))
    | rational hq =>
      exact (sexpCompare_run flo (depth + 1) hp hq).mono fun _ _ hpost => hpost.1

end Rows

end ChibiScheme
