import ChibiScheme.Numeric.Subtract

/-!
# Real numbers: what the tower allocates

A part of a complex number is an exact rational or a flonum.  On such operands
`sexp_add`, `sexp_sub` and `sexp_mul` only allocate, and what they return may be
negated in place: it is new, with its numerator, unless it is a flonum that was
passed in (`Result`).  `sexp_div` of two integers changes its operands, and
nothing else.
-/

namespace ChibiScheme

open Stateful ExactInt

variable {F : Type} {h h' : Heap F} {v a b : Val} {x y : ExactInt} {m d : ℤ} {bound : ℕ}

/-- `v` is an exact rational, or a flonum that is new since `bound`. -/
inductive Real (bound : ℕ) (h : Heap F) (v : Val) : Prop
  | exact (hwide : WideQ h v) : Real bound h v
  | flonum {x : F} (hlookup : h.lookup v = some (.flonum x)) (hfresh : Fresh bound v) :
      Real bound h v

theorem Real.of_extends (hextends : Extends h h') (hv : Real bound h v) : Real bound h' v := by
  cases hv with
  | exact hwide => exact .exact (hwide.of_extends hextends)
  | flonum hlookup hfresh => exact .flonum (lookup_of_extends hextends hlookup) hfresh

/-- The object whose sign `sexp_negate_maybe_ratio(v)` changes: the bignum, the
bignum numerator, or the ratio with a fixnum numerator other than the least. -/
def signCell (h : Heap F) (v : Val) : Option ℕ :=
  match v with
  | .ptr addr =>
    match h[addr]? with
    | some (.bignum _) => some addr
    | some (.flonum _) => some addr
    | some (.ratio (.fixnum n) _) =>
      if n = sexpMakeFixnum sexpMinFixnum then none else some addr
    | some (.ratio (.ptr num) _) => some num
    | _ => none
  | _ => none

/-- The object that a negation of `v` would change is new since `h₀`, or a flonum
that was there. -/
def CellNew (h₀ h : Heap F) (v : Val) : Prop :=
  ∀ i : ℕ, signCell h v = some i → h₀.length ≤ i ∨ ∃ x, h₀[i]? = some (.flonum x)

/-- What an operation on real numbers returns and leaves. -/
structure Result (bound : ℕ) (h : Heap F) (r : Val) (h' : Heap F) : Prop where
  frame : Extends h h'
  real : Real bound h' r
  fresh : DeepFresh bound h' r
  cell : CellNew h h' r

theorem signCell_congr (hsame : ∀ addr, v = .ptr addr → h'[addr]? = h[addr]?) :
    signCell h' v = signCell h v := by
  cases v with
  | ptr addr => simp only [signCell, hsame addr rfl]
  | _ => rfl

theorem Real.getElem? {addr : ℕ} (hv : Real bound h (.ptr addr)) :
    ∃ object, h[addr]? = some object ∧ ∀ real imag, object ≠ .complex real imag := by
  cases hv with
  | exact hwide =>
    obtain ⟨m, d, hholds⟩ := hwide
    cases hholds with
    | integer hx =>
      rename_i x
      have hcontents := hx.1
      cases x with
      | fixnum n => simp [integer?_eq_some_fixnum_iff] at hcontents
      | bignum bn => exact ⟨_, integer?_eq_some_bignum_iff.mp hcontents, by simp⟩
    | ratio hratio => exact ⟨_, hratio.lookup, by simp⟩
  | flonum hlookup _ => exact ⟨_, hlookup, by simp⟩

theorem Real.signCell_of_extends (hextends : Extends h h') (hv : Real bound h v) :
    signCell h' v = signCell h v := by
  apply signCell_congr
  rintro addr rfl
  obtain ⟨object, hobject, -⟩ := hv.getElem?
  exact hextends.2 addr (List.getElem?_eq_some_iff.mp hobject).1

theorem DeepFresh.signCell_ge (hfresh : DeepFresh bound h v) :
    ∀ i, signCell h v = some i → bound ≤ i := by
  intro i hi
  cases v with
  | ptr addr =>
    have haddr : bound ≤ addr := hfresh.1
    simp only [signCell] at hi
    split at hi
    · obtain rfl := Option.some.inj hi
      exact haddr
    · obtain rfl := Option.some.inj hi
      exact haddr
    · split at hi
      · simp at hi
      · obtain rfl := Option.some.inj hi
        exact haddr
    · rename_i num den hratio
      obtain rfl := Option.some.inj hi
      exact (hfresh.2 _ _ hratio).1
    · simp at hi
  | _ => simp [signCell] at hi

theorem DeepFresh.mono {bound' : ℕ} (hfresh : DeepFresh bound h v) (hle : bound' ≤ bound) :
    DeepFresh bound' h v :=
  ⟨hfresh.1.mono hle, fun num den hlookup =>
    (hfresh.2 num den hlookup).imp (·.mono hle) (·.mono hle)⟩

theorem DeepFresh.of_extends (hextends : Extends h h') (hv : Real bound h v)
    (hfresh : DeepFresh bound h v) : DeepFresh bound h' v := by
  refine ⟨hfresh.1, ?_⟩
  intro num den hlookup
  cases hv with
  | exact hwide =>
    obtain ⟨m, d, hholds⟩ := hwide
    cases hholds with
    | integer hx => exact absurd hlookup (lookup_ne_ratio (hx.of_extends hextends).1)
    | ratio hratio =>
      have heq := (hratio.of_extends hextends).lookup.symm.trans hlookup
      simp only [Option.some.injEq, Obj.ratio.injEq] at heq
      obtain ⟨rfl, rfl⟩ := heq
      exact hfresh.2 _ _ hratio.lookup
  | flonum hflonum _ =>
    have heq := (lookup_of_extends hextends hflonum).symm.trans hlookup
    simp at heq

theorem Result.of_subtracted {r : Val} (hle : bound ≤ h.length) (hsub : Subtracted h r h') :
    Result bound h r h' :=
  ⟨hsub.frame, .exact hsub.wide, hsub.fresh.mono hle, fun i hi => .inl (hsub.fresh.signCell_ge i hi)⟩

theorem numberType_flonum {x : F} (hv : h.lookup v = some (.flonum x)) :
    numberType v h = some (.flo, h) := by
  obtain ⟨addr, rfl⟩ := Heap.ptr_of_lookup hv
  simp only [numberType, hv]

theorem readFlonum_run {x : F} (hv : h.lookup v = some (.flonum x)) :
    readFlonum v h = some (x, h) := by
  obtain ⟨addr, rfl⟩ := Heap.ptr_of_lookup hv
  have hread : readObj (.ptr addr) h = some (.flonum x, h) := by
    show (h[addr]?).map _ = _
    rw [show h[addr]? = _ from hv]
    rfl
  exact bind_run hread

/-! ## Classes -/

/-- The classes a real number can have. -/
inductive RealType : NumType → Prop
  | fix : RealType .fix
  | flo : RealType .flo
  | big : RealType .big
  | rat : RealType .rat

theorem Real.numberType (hv : Real bound h v) :
    ∃ type, numberType v h = some (type, h) ∧ RealType type ∧
      (type = .flo → ∃ x, h.lookup v = some (.flonum x) ∧ Fresh bound v) ∧
      (type ≠ .flo → WideQ h v) := by
  cases hv with
  | exact hwide =>
    obtain ⟨m, d, hholds⟩ := hwide
    have hwide : WideQ h v := ⟨m, d, hholds⟩
    cases hholds with
    | integer hx =>
      rename_i x
      refine ⟨_, numberType_integer hx.1, ?_, ?_, fun _ => hwide⟩
      · cases x
        · exact .fix
        · exact .big
      · cases x <;> simp [ExactInt.numType]
    | ratio hratio =>
      exact ⟨_, numberType_ratio hratio.lookup, .rat, by simp, fun _ => hwide⟩
  | flonum hlookup hfresh =>
    exact ⟨_, numberType_flonum hlookup, .flo, fun _ => ⟨_, hlookup, hfresh⟩,
      fun hne => absurd rfl hne⟩

section Flonums

variable (flo : FlonumOps F)

theorem sexpToDouble_run (hv : Real bound h v) : ∃ x, sexpToDouble flo v h = some (x, h) := by
  cases hv with
  | exact hwide =>
    obtain ⟨m, d, hholds⟩ := hwide
    cases hholds with
    | integer hx =>
      rename_i x
      cases x with
      | fixnum n =>
        exact ⟨_, (bind_run (numberType_integer hx.1)).trans (bind_run (readInt_run hx.1))⟩
      | bignum bn =>
        exact ⟨_, (bind_run (numberType_integer hx.1)).trans (bind_run (readInt_run hx.1))⟩
    | ratio hratio =>
      rename_i num den x y
      refine ⟨flo.ofRatio x y, (bind_run (numberType_ratio hratio.lookup)).trans ?_⟩
      refine (bind_run (readRatio_run hratio.lookup)).trans ?_
      exact (bind_run (readInt_run hratio.num.1)).trans (bind_run (readInt_run hratio.den.1))
  | flonum hlookup _ =>
    exact ⟨_, (bind_run (numberType_flonum hlookup)).trans (readFlonum_run hlookup)⟩

theorem makeFlonum_result (x : F) (hle : bound ≤ h.length) :
    Returns (sexpMakeFlonum x) h (Result bound h) := by
  have hlookup : (h ++ [Obj.flonum x] : Heap F).lookup (.ptr h.length) = some (.flonum x) := by
    simp [Heap.lookup]
  refine Returns.of_run (show sexpMakeFlonum x h = some (.ptr h.length, h ++ [.flonum x]) from rfl)
    ⟨Extends.append h _, .flonum hlookup hle, ⟨hle, ?_⟩, ?_⟩
  · intro num den hratio
    simp [hlookup] at hratio
  · intro i hi
    have hobject : (h ++ [Obj.flonum x] : Heap F)[h.length]? = some (.flonum x) := hlookup
    simp only [signCell, hobject, Option.some.injEq] at hi
    exact .inl hi.le

theorem flonumRow_run (op : F → F → F) (ha : Real bound h a) (hb : Real bound h b)
    (hle : bound ≤ h.length) : Returns (flonumRow flo op a b) h (Result bound h) := by
  obtain ⟨x, hx⟩ := sexpToDouble_run flo ha
  obtain ⟨y, hy⟩ := sexpToDouble_run flo hb
  refine Returns.of_bind_run hx (Returns.of_bind_run hy ?_)
  exact makeFlonum_result (op x y) hle

private theorem flonum_result {x : F} (hlookup : h.lookup v = some (.flonum x))
    (hfresh : Fresh bound v) : Result bound h v h := by
  refine ⟨Extends.refl h, .flonum hlookup hfresh, ⟨hfresh, ?_⟩, ?_⟩
  · intro num den hratio
    rw [hlookup] at hratio
    simp at hratio
  · intro i hi
    obtain ⟨addr, rfl⟩ := Heap.ptr_of_lookup hlookup
    have hobject : h[addr]? = some (.flonum x) := hlookup
    simp only [signCell, hobject, Option.some.injEq] at hi
    rw [← hi]
    exact .inr ⟨x, hobject⟩

theorem zero_result (bound : ℕ) (h : Heap F) : Result bound h .zero h := by
  refine ⟨Extends.refl h, .exact ⟨_, _, .integer (x := fixnum sexpZero) ⟨rfl, trivial⟩⟩,
    ⟨trivial, ?_⟩, ?_⟩
  · intro num den hlookup
    simp [Val.zero, Heap.lookup] at hlookup
  · intro i hi
    simp [signCell, Val.zero] at hi

end Flonums

/-! ## The tables on real numbers -/

section Tables

variable (flo : FlonumOps F) (depth : ℕ)

theorem add_real (ha : Real bound h a) (hb : Real bound h b) (hle : bound ≤ h.length) :
    Returns ((arith flo (depth + 2)).add a b) h (Result bound h) := by
  obtain ⟨ta, hta, hra, hfa, hea⟩ := ha.numberType
  obtain ⟨tb, htb, hrb, hfb, heb⟩ := hb.numberType
  by_cases hexact : ta ≠ .flo ∧ tb ≠ .flo
  · obtain ⟨m, d, hm⟩ := hea hexact.1
    obtain ⟨m', d', hm'⟩ := heb hexact.2
    exact (sexpAdd_run flo depth hm hm').mono fun r h' hreduces =>
      Result.of_subtracted hle hreduces.subtracted
  · have hrow := flonumRow_run flo flo.add ha hb hle
    have hrow' := flonumRow_run flo flo.add hb ha hle
    refine Returns.of_bind_run hta (Returns.of_bind_run htb ?_)
    cases hra <;> cases hrb <;> simp only [ne_eq, reduceCtorEq, not_false_eq_true, not_true_eq_false,
      and_self, and_true, and_false] at hexact
    · -- a fixnum and a flonum
      obtain ⟨x, hlookup, hfresh⟩ := hfb rfl
      show Returns (if a = .zero then pure b else flonumRow flo flo.add a b) h _
      split
      · exact Returns.pure (flonum_result hlookup hfresh)
      · exact hrow
    · obtain ⟨x, hlookup, hfresh⟩ := hfa rfl
      show Returns (if b = .zero then pure a else flonumRow flo flo.add b a) h _
      split
      · exact Returns.pure (flonum_result hlookup hfresh)
      · exact hrow'
    · exact hrow
    · exact hrow
    · exact hrow
    · exact hrow'
    · exact hrow'

theorem mul_real (ha : Real bound h a) (hb : Real bound h b) (hle : bound ≤ h.length) :
    Returns ((arith flo (depth + 2)).mul a b) h (Result bound h) := by
  obtain ⟨ta, hta, hra, hfa, hea⟩ := ha.numberType
  obtain ⟨tb, htb, hrb, hfb, heb⟩ := hb.numberType
  by_cases hexact : ta ≠ .flo ∧ tb ≠ .flo
  · obtain ⟨m, d, hm⟩ := hea hexact.1
    obtain ⟨m', d', hm'⟩ := heb hexact.2
    exact (sexpMul_run flo depth hm hm').mono fun r h' hreduces =>
      Result.of_subtracted hle hreduces.subtracted
  · have hrow := flonumRow_run flo flo.mul ha hb hle
    have hrow' := flonumRow_run flo flo.mul hb ha hle
    refine Returns.of_bind_run hta (Returns.of_bind_run htb ?_)
    cases hra <;> cases hrb <;> simp only [ne_eq, reduceCtorEq, not_false_eq_true, not_true_eq_false,
      and_self, and_true, and_false] at hexact
    · show Returns (if a = .zero then pure a else flonumRow flo flo.mul a b) h _
      split
      · rename_i hzero
        rw [hzero]
        exact Returns.pure (zero_result bound h)
      · exact hrow
    · show Returns (if b = .zero then pure b else flonumRow flo flo.mul b a) h _
      split
      · rename_i hzero
        rw [hzero]
        exact Returns.pure (zero_result bound h)
      · exact hrow'
    · exact hrow
    · exact hrow
    · exact hrow
    · exact hrow'
    · exact hrow'

theorem sub_real (ha : Real bound h a) (hb : Real bound h b) (hle : bound ≤ h.length) :
    Returns ((arith flo (depth + 2)).sub a b) h (Result bound h) := by
  obtain ⟨ta, hta, hra, hfa, hea⟩ := ha.numberType
  obtain ⟨tb, htb, hrb, hfb, heb⟩ := hb.numberType
  by_cases hexact : ta ≠ .flo ∧ tb ≠ .flo
  · obtain ⟨m, d, hm⟩ := hea hexact.1
    obtain ⟨m', d', hm'⟩ := heb hexact.2
    exact (sexpSub_run flo depth hm hm').mono fun r h' hdifference =>
      Result.of_subtracted hle hdifference.1
  · have hrow := flonumRow_run flo flo.sub ha hb hle
    refine Returns.of_bind_run hta (Returns.of_bind_run htb ?_)
    cases hra <;> cases hrb <;> simp only [ne_eq, reduceCtorEq, not_false_eq_true, not_true_eq_false,
      and_self, and_true, and_false] at hexact
    · -- zero minus a flonum is the flonum negated, in a new object
      obtain ⟨x, hlookup, -⟩ := hfb rfl
      show Returns (if a = .zero then (do
        let x ← readFlonum b
        sexpMakeFlonum (flo.neg x)) else flonumRow flo flo.sub a b) h _
      split
      · exact Returns.of_bind_run (readFlonum_run hlookup) (makeFlonum_result _ hle)
      · exact hrow
    all_goals exact hrow

end Tables

/-! ## Division

Dividing two integers flips them in place, so that after it they are known up to
their sign only.  That is all the routines for complex numbers rely on. -/

/-- Two objects that differ in signs only, or in the parts of a complex number. -/
def SameShape : Obj F → Obj F → Prop
  | .flonum _, .flonum _ => True
  | .bignum b, .bignum b' => b'.magnitude = b.magnitude
  | .ratio num den, .ratio num' den' =>
    den' = den ∧ (num' = num ∨ (∃ n, num = .fixnum n) ∧ ∃ n, num' = .fixnum n)
  | .complex _ _, .complex _ _ => True
  | _, _ => False

theorem SameShape.refl (object : Obj F) : SameShape object object := by
  cases object with
  | flonum x => trivial
  | bignum bn => rfl
  | ratio num den => exact ⟨rfl, .inl rfl⟩
  | complex real imag => trivial

theorem SameShape.trans {o₁ o₂ o₃ : Obj F} (h12 : SameShape o₁ o₂) (h23 : SameShape o₂ o₃) :
    SameShape o₁ o₃ := by
  cases o₁ <;> cases o₂ <;> first | exact h12.elim | cases o₃ <;> first | exact h23.elim | skip
  · trivial
  · exact Eq.trans h23 h12
  · obtain ⟨rfl, hnum12⟩ := h12
    obtain ⟨rfl, hnum23⟩ := h23
    refine ⟨rfl, ?_⟩
    rcases hnum12 with rfl | ⟨hfix, hfix'⟩
    · exact hnum23
    · rcases hnum23 with rfl | ⟨-, hfix''⟩
      · exact .inr ⟨hfix, hfix'⟩
      · exact .inr ⟨hfix, hfix''⟩
  · trivial

/-- Nothing below `bound` has changed, and the rest is known up to signs. -/
structure Preserves (bound : ℕ) (h h' : Heap F) : Prop where
  length : h.length ≤ h'.length
  below : ∀ i < bound, h'[i]? = h[i]?
  shape : ∀ (i : ℕ) (object : Obj F), h[i]? = some object → ∃ object', h'[i]? = some object' ∧
    SameShape object object'

theorem Extends.preserves (hextends : Extends h h') (hle : bound ≤ h.length) :
    Preserves bound h h' where
  length := hextends.1
  below i hi := hextends.2 i (hi.trans_le hle)
  shape i object hobject :=
    ⟨object, (hextends.2 i (List.getElem?_eq_some_iff.mp hobject).1).trans hobject,
      SameShape.refl object⟩

theorem Preserves.trans {h₁ h₂ h₃ : Heap F} (h12 : Preserves bound h₁ h₂)
    (h23 : Preserves bound h₂ h₃) : Preserves bound h₁ h₃ where
  length := h12.length.trans h23.length
  below i hi := (h23.below i hi).trans (h12.below i hi)
  shape i object hobject := by
    obtain ⟨object₂, hobject₂, hshape₂⟩ := h12.shape i object hobject
    obtain ⟨object₃, hobject₃, hshape₃⟩ := h23.shape i object₂ hobject₂
    exact ⟨object₃, hobject₃, hshape₂.trans hshape₃⟩

theorem WideInt.of_preserves (hpreserves : Preserves bound h h') (hv : WideInt h v x) :
    ∃ x', WideInt h' v x' ∧ (x'.toInt = 0 → x.toInt = 0) := by
  obtain ⟨hcontents, hwide⟩ := hv
  cases x with
  | fixnum n =>
    rw [integer?_eq_some_fixnum_iff] at hcontents
    subst hcontents
    exact ⟨fixnum n, ⟨rfl, trivial⟩, id⟩
  | bignum bn =>
    rw [integer?_eq_some_bignum_iff] at hcontents
    obtain ⟨addr, rfl⟩ := Heap.ptr_of_lookup hcontents
    obtain ⟨object, hobject, hshape⟩ := hpreserves.shape addr _ hcontents
    cases object with
    | bignum bn' =>
      have hmagnitude : bn'.magnitude = bn.magnitude := hshape
      refine ⟨bignum bn', ⟨integer?_eq_some_bignum_iff.mpr hobject, ?_⟩, ?_⟩
      · show 2 ^ 62 ≤ bn'.magnitude
        rw [hmagnitude]
        exact hwide
      · have habs := bn.natAbs_toInt
        have habs' := bn'.natAbs_toInt
        simp only [toInt_bignum]
        omega
    | _ => exact hshape.elim

theorem WideQ.of_preserves (hpreserves : Preserves bound h h') (hv : WideQ h v) : WideQ h' v := by
  obtain ⟨m, d, hholds⟩ := hv
  cases hholds with
  | integer hx =>
    obtain ⟨x', hx', -⟩ := hx.of_preserves hpreserves
    exact ⟨_, _, .integer hx'⟩
  | ratio hratio =>
    rename_i num den x y
    obtain ⟨y', hy', hzero⟩ := hratio.den.of_preserves hpreserves
    have hne : y'.toInt ≠ 0 := fun h0 => hratio.den_ne (hzero h0)
    cases v with
    | ptr addr =>
      obtain ⟨object, hobject, hshape⟩ := hpreserves.shape addr _ hratio.lookup
      cases object with
      | ratio num' den' =>
        obtain ⟨rfl, rfl | ⟨-, n, rfl⟩⟩ := hshape
        · obtain ⟨x', hx', -⟩ := hratio.num.of_preserves hpreserves
          exact ⟨_, _, .ratio ⟨hobject, hx', hy', hne⟩⟩
        · exact ⟨_, _, .ratio (x := fixnum n) ⟨hobject, ⟨rfl, trivial⟩, hy', hne⟩⟩
      | _ => exact hshape.elim
    | _ =>
      have hlookup := hratio.lookup
      simp [Heap.lookup] at hlookup

theorem Real.of_preserves {bound' : ℕ} (hpreserves : Preserves bound' h h')
    (hv : Real bound h v) : Real bound h' v := by
  cases hv with
  | exact hwide => exact .exact (hwide.of_preserves hpreserves)
  | flonum hlookup hfresh =>
    obtain ⟨addr, rfl⟩ := Heap.ptr_of_lookup hlookup
    obtain ⟨object, hobject, hshape⟩ := hpreserves.shape addr _ hlookup
    cases object with
    | flonum x => exact .flonum hobject hfresh
    | _ => exact hshape.elim

theorem preserves_flips (hnum : Fresh bound a) (hden : Fresh bound b) :
    Preserves bound h ((h.flip a).flip b) where
  length := by simp
  below i hi := by
    rw [getElem?_flip, if_neg (hden.ne_ptr hi), getElem?_flip, if_neg (hnum.ne_ptr hi)]
  shape i object hobject := by
    have hflip : ∀ {object : Obj F}, SameShape object (negateObj object) := by
      intro object
      cases object with
      | bignum bn => rfl
      | flonum x => trivial
      | ratio num den => exact ⟨rfl, .inl rfl⟩
      | complex real imag => trivial
    rw [getElem?_flip, getElem?_flip, hobject]
    split <;> split
    · exact ⟨_, rfl, hflip.trans hflip⟩
    · exact ⟨_, rfl, hflip⟩
    · exact ⟨_, rfl, hflip⟩
    · exact ⟨_, rfl, SameShape.refl object⟩

section Division

variable (flo : FlonumOps F) (depth : ℕ)

theorem normalizeNew_zero (num : Val) {den : Val} (hy : WideInt h den y) (hzero : y.toInt = 0) :
    Returns (do sexpRatioNormalize flo (arith flo (depth + 1)) (← sexpMakeRatio num den)) h
      fun _ h' => Extends h h' := by
  let h₁ : Heap F := h ++ [.ratio num den]
  have hextends : Extends h h₁ := Extends.append h _
  have hp : h₁.lookup (.ptr h.length) = some (.ratio num den) := by simp [h₁, Heap.lookup]
  have hy₁ := (hy.of_extends hextends).1
  have hden : den = .zero := (eq_zero_iff hy.1).mpr ((hy.2.eq_zero_iff).mpr hzero)
  have hnonneg : y.negative = false := by
    rw [Bool.eq_false_iff, Ne, hy.2.negative_iff]
    omega
  have hsign := sexpExactNegativep_run hy₁
  rw [hnonneg] at hsign
  have hadjust : makeDenominatorPositive flo (.ptr h.length) h₁ = some ((), h₁) :=
    (bind_run (readRatio_run hp)).trans (bind_run hsign)
  refine ⟨.exception "zero denominator in ratio", h₁, ?_, hextends⟩
  refine (bind_run (show sexpMakeRatio num den h = some (.ptr h.length, h₁) from rfl)).trans ?_
  refine (bind_run hadjust).trans ((bind_run (readRatio_run hp)).trans ?_)
  simp only [if_pos hden]
  rfl

theorem normalizeNew_preserves {num den : Val} (hx : WideInt h num x) (hy : WideInt h den y)
    (hle : bound ≤ h.length) (hnum : Fresh bound num) (hden : Fresh bound den) :
    Returns (do sexpRatioNormalize flo (arith flo (depth + 1)) (← sexpMakeRatio num den)) h
      fun _ h' => Preserves bound h h' := by
  by_cases hzero : y.toInt = 0
  · exact (normalizeNew_zero flo depth _ hy hzero).mono fun _ _ hextends => hextends.preserves hle
  refine (normalizeNew_run flo depth hx hy hzero).mono ?_
  rintro r h' ⟨hlength, hframe, -⟩
  have hnormalized : Preserves bound h (normalizedHeap h num den x y) := by
    unfold normalizedHeap
    split
    · exact preserves_flips hnum hden
    · exact (Extends.refl h).preserves hle
  refine ⟨hlength, fun i hi => (hframe i (by omega)).trans (hnormalized.below i hi), ?_⟩
  intro i object hobject
  rw [hframe i (List.getElem?_eq_some_iff.mp hobject).1]
  exact hnormalized.shape i object hobject

theorem sexpRatioDiv_preserves {anum aden bnum bden : Val} {xa ya xb yb : ExactInt}
    (ha : IsRatio h a anum aden xa ya) (hb : IsRatio h b bnum bden xb yb) (hle : bound ≤ h.length) :
    Returns (sexpRatioDiv flo (arith flo (depth + 1)) a b) h fun _ h' => Preserves bound h h' := by
  refine Returns.of_bind_run (readRatio_run ha.lookup) ?_
  refine Returns.of_bind_run (readRatio_run hb.lookup) ?_
  refine (mul_run flo depth ha.num.1 hb.den.1).bind ?_
  rintro num h₁ ⟨hext₁, hnum, hfreshNum⟩
  refine (mul_run flo depth (ha.den.of_extends hext₁).1 (hb.num.of_extends hext₁).1).bind ?_
  rintro den h₂ ⟨hext₂, hden, hfreshDen⟩
  have hext := hext₁.trans hext₂
  refine (normalizeNew_preserves flo depth (hnum.of_extends hext₂) hden (hle.trans hext.1)
    (hfreshNum.mono hle) (hfreshDen.mono (hle.trans hext₁.1))).mono ?_
  exact fun _ _ hpreserves => (hext.preserves hle).trans hpreserves

theorem div_ratio_preserves {m d m' d' : ℤ} (ha : Holds h a m d) (hb : Holds h b m' d')
    (hratio : ¬ ((∃ x, WideInt h a x) ∧ ∃ y, WideInt h b y)) (hle : bound ≤ h.length) :
    Returns ((arith flo (depth + 2)).div a b) h fun _ h' => Preserves bound h h' := by
  have hwrap : ∀ {w : Val}, Extends h (h ++ [.ratio w .one]) := Extends.append h _
  cases ha with
  | integer hx =>
    rename_i x
    cases hb with
    | integer hy => exact absurd ⟨⟨_, hx⟩, ⟨_, hy⟩⟩ hratio
    | ratio hb =>
      refine Returns.of_bind_run (numberType_integer hx.1) ?_
      refine Returns.of_bind_run (numberType_ratio hb.lookup) ?_
      have hwrapped : Returns (do
          sexpRatioDiv flo (arith flo (depth + 1)) (← sexpMakeRatio a .one) b) h
          fun _ h' => Preserves bound h h' := by
        refine Returns.of_bind_run
          (show sexpMakeRatio a .one h = some (.ptr h.length, _) from rfl) ?_
        refine (sexpRatioDiv_preserves flo depth (wrap_isRatio hx) (hb.of_extends hwrap)
          (hle.trans hwrap.1)).mono ?_
        exact fun _ _ hpreserves => (hwrap.preserves hle).trans hpreserves
      cases x <;> exact hwrapped
  | ratio ha =>
    cases hb with
    | integer hy =>
      rename_i y
      refine Returns.of_bind_run (numberType_ratio ha.lookup) ?_
      refine Returns.of_bind_run (numberType_integer hy.1) ?_
      have hwrapped : Returns (do
          sexpRatioDiv flo (arith flo (depth + 1)) a (← sexpMakeRatio b .one)) h
          fun _ h' => Preserves bound h h' := by
        refine Returns.of_bind_run
          (show sexpMakeRatio b .one h = some (.ptr h.length, _) from rfl) ?_
        refine (sexpRatioDiv_preserves flo depth (ha.of_extends hwrap) (wrap_isRatio hy)
          (hle.trans hwrap.1)).mono ?_
        exact fun _ _ hpreserves => (hwrap.preserves hle).trans hpreserves
      cases y <;> exact hwrapped
    | ratio hb =>
      refine Returns.of_bind_run (numberType_ratio ha.lookup) ?_
      refine Returns.of_bind_run (numberType_ratio hb.lookup) ?_
      exact sexpRatioDiv_preserves flo depth ha hb hle

theorem div_real (ha : Real bound h a) (hb : Real bound h b) (hle : bound ≤ h.length)
    (hfreshA : Fresh bound a) (hfreshB : Fresh bound b) :
    Returns ((arith flo (depth + 2)).div a b) h fun _ h' => Preserves bound h h' := by
  obtain ⟨ta, hta, hra, -, hea⟩ := ha.numberType
  obtain ⟨tb, htb, hrb, -, heb⟩ := hb.numberType
  by_cases hexact : ta ≠ .flo ∧ tb ≠ .flo
  · obtain ⟨m, d, hm⟩ := hea hexact.1
    obtain ⟨m', d', hm'⟩ := heb hexact.2
    by_cases hintegers : (∃ x, WideInt h a x) ∧ ∃ y, WideInt h b y
    · obtain ⟨⟨x, hx⟩, ⟨y, hy⟩⟩ := hintegers
      obtain ⟨r, h', hrun, hpreserves⟩ :=
        normalizeNew_preserves flo depth hx hy hle hfreshA hfreshB
      exact ⟨r, h', (divTable_integer flo depth hx.1 hy.1).trans hrun, hpreserves⟩
    · exact div_ratio_preserves flo depth hm hm' hintegers hle
  · have hrow := (flonumRow_run flo flo.div ha hb hle).mono fun _ _ hresult =>
      hresult.frame.preserves hle
    refine Returns.of_bind_run hta (Returns.of_bind_run htb ?_)
    cases hra <;> cases hrb <;> simp only [ne_eq, reduceCtorEq, not_false_eq_true, not_true_eq_false,
      and_self, and_true, and_false] at hexact
    all_goals exact hrow

end Division

end ChibiScheme
