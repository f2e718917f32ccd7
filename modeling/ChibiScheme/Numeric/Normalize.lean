import ChibiScheme.Numeric.Represents

/-!
# `sexp_ratio_normalize` in the heap

The ratio object being normalized is new, but its numerator and denominator may
be objects the caller still holds.  This module says what the routine returns
and what it does to the rest of the heap.

The sign adjustment flips bignums where they are (`Heap.flip`), so an object
that is both numerator and denominator is flipped twice.  Everything else the
routine does goes to new objects, except that a quotient by one is the dividend
itself: then the second adjustment reaches the same objects again.
-/

namespace ChibiScheme

open Stateful ExactInt List

variable {F : Type} {h h' : Heap F} {v a b num den : Val} {x y : ExactInt} {p : ℕ}

/-! ## Flipping signs in place -/

/-- A bignum in place with its sign changed. -/
def negateObj : Obj F → Obj F
  | .bignum b => .bignum b.negate
  | object => object

/-- The heap after `sexp_negate_exact(v)`. -/
def Heap.flip (h : Heap F) : Val → Heap F
  | .ptr addr => h.modify addr negateObj
  | _ => h

/-- What the variable holds after `sexp_negate_exact(v)`. -/
def negateVal : Val → Val
  | .fixnum n => .fixnum (sexpFxNeg n)
  | v => v

@[simp] theorem length_flip (h : Heap F) (v : Val) : (h.flip v).length = h.length := by
  cases v <;> simp [Heap.flip]

theorem getElem?_flip (h : Heap F) (v : Val) (i : ℕ) :
    (h.flip v)[i]? = if v = .ptr i then (h[i]?).map negateObj else h[i]? := by
  cases v with
  | ptr addr =>
    simp only [Heap.flip, getElem?_modify, Val.ptr.injEq]
    split <;> simp
  | _ => simp [Heap.flip]

theorem negateObj_negateObj (object : Obj F) : negateObj (negateObj object) = object := by
  cases object <;> simp [negateObj]

theorem sexpNegateExact_run (v : Val) (h : Heap F) :
    sexpNegateExact v h = some (negateVal v, h.flip v) := by
  cases v with
  | ptr addr =>
    simp only [sexpNegateExact, negateVal]
    split
    · rename_i bn hbn
      congr 2
      apply ext_getElem?
      intro i
      rw [getElem?_flip, getElem?_set]
      split
      · rename_i heq
        subst heq
        rw [if_pos rfl, if_pos (List.getElem?_eq_some_iff.mp hbn).1, hbn]
        rfl
      · rename_i hne
        rw [if_neg (by simpa using hne)]
    · rename_i hnone
      congr 2
      apply ext_getElem?
      intro i
      rw [getElem?_flip]
      split
      · rename_i heq
        obtain rfl := Val.ptr.inj heq
        cases hobj : h[addr]? with
        | none => rfl
        | some object =>
          cases object with
          | bignum bn => exact absurd hobj (hnone bn)
          | _ => rfl
      · rfl
  | _ => rfl

theorem integer?_congr (hsame : ∀ addr, v = .ptr addr → h'[addr]? = h[addr]?) :
    h'.integer? v = h.integer? v := by
  cases v with
  | ptr addr => simp only [Heap.integer?, Heap.lookup, hsame addr rfl]
  | _ => rfl

/-- The contents after a sign flip of the object they are in. -/
def ExactInt.flip : ExactInt → ExactInt
  | fixnum n => fixnum n
  | bignum bn => bignum bn.negate

theorem integer?_flip_self (hx : h.integer? v = some x) : (h.flip v).integer? v = some x.flip := by
  cases x with
  | fixnum n =>
    rw [integer?_eq_some_fixnum_iff] at hx
    subst hx
    rfl
  | bignum bn =>
    rw [integer?_eq_some_bignum_iff] at hx
    obtain ⟨addr, rfl⟩ := Heap.ptr_of_lookup hx
    rw [ExactInt.flip, integer?_eq_some_bignum_iff]
    show (h.flip (.ptr addr))[addr]? = _
    rw [getElem?_flip, if_pos rfl, show h[addr]? = _ from hx]
    rfl

theorem integer?_flip_of_ne (hne : a ≠ b) : (h.flip a).integer? b = h.integer? b := by
  apply integer?_congr
  rintro addr rfl
  rw [getElem?_flip, if_neg hne]

theorem integer?_set_ratio (object : Obj F) (hp : h[p]? = some (.ratio num den))
    (hx : h.integer? v = some x) : Heap.integer? (h.set p object) v = some x := by
  rw [← hx]
  apply integer?_congr
  rintro addr rfl
  rw [getElem?_set, if_neg]
  rintro rfl
  cases x with
  | fixnum n => simp [integer?_eq_some_fixnum_iff] at hx
  | bignum bn =>
    rw [integer?_eq_some_bignum_iff] at hx
    exact absurd (hp.symm.trans hx) (by simp)

theorem lt_length_of_integer {addr : ℕ} (hx : h.integer? (.ptr addr) = some x) :
    addr < h.length := by
  cases x with
  | fixnum n => simp [integer?_eq_some_fixnum_iff] at hx
  | bignum bn =>
    rw [integer?_eq_some_bignum_iff] at hx
    exact (List.getElem?_eq_some_iff.mp hx).1

theorem ne_ptr_of_integer (hp : h[p]? = some (.ratio num den)) (hx : h.integer? v = some x) :
    v ≠ .ptr p := by
  rintro rfl
  cases x with
  | fixnum n => simp [integer?_eq_some_fixnum_iff] at hx
  | bignum bn =>
    rw [integer?_eq_some_bignum_iff] at hx
    exact absurd (hp.symm.trans hx) (by simp)

theorem sexpNegate_run (flo : FlonumOps F) (hx : h.integer? v = some x) :
    sexpNegate flo v h = some (negateVal v, h.flip v) := by
  rw [← sexpNegateExact_run]
  unfold sexpNegate
  cases x with
  | fixnum n =>
    rw [integer?_eq_some_fixnum_iff] at hx
    subst hx
    rfl
  | bignum bn =>
    rw [integer?_eq_some_bignum_iff] at hx
    simp only [hx]

/-- Whether `sexp_exact_negativep` holds of the contents. -/
def ExactInt.negative : ExactInt → Bool
  | fixnum n => decide (n.val < 0)
  | bignum bn => decide (bn.sign = .neg)

theorem sexpExactNegativep_run (hx : h.integer? v = some x) :
    sexpExactNegativep v h = some (x.negative, h) := by
  unfold sexpExactNegativep
  rw [hx]
  cases x <;> rfl

theorem ExactInt.Wide.negative_iff {x : ExactInt} (hwide : x.Wide) :
    x.negative = true ↔ x.toInt < 0 := by
  cases x with
  | fixnum n => simp [ExactInt.negative]
  | bignum bn =>
    have hmagnitude : 2 ^ 62 ≤ bn.magnitude := hwide
    simp only [ExactInt.negative, decide_eq_true_eq, toInt_bignum, Bignum.toInt]
    cases bn.sign
    · simp
    · simp
      omega

/-! ## The sign adjustment -/

section Adjustment

variable (flo : FlonumOps F)

theorem negateRatioParts_run (hp : h[p]? = some (.ratio num den)) (hx : h.integer? num = some x)
    (hy : h.integer? den = some y) :
    ∃ h', negateRatioParts flo (.ptr p) h = some ((), h') ∧ h'.length = h.length ∧
      h'[p]? = some (.ratio (negateVal num) (negateVal den)) ∧
      ∀ i ≠ p, h'[i]? = ((h.flip num).flip den)[i]? := by
  have hlt : p < h.length := (List.getElem?_eq_some_iff.mp hp).1
  have hnum := ne_ptr_of_integer hp hx
  have hden := ne_ptr_of_integer hp hy
  have hp1 : (h.flip num)[p]? = some (.ratio num den) := by
    rw [getElem?_flip, if_neg hnum, hp]
  obtain ⟨y1, hy1⟩ : ∃ y1, (h.flip num).integer? den = some y1 := by
    by_cases heq : num = den
    · subst heq
      exact ⟨_, integer?_flip_self hx⟩
    · exact ⟨y, (integer?_flip_of_ne heq).trans hy⟩
  have hy2 : Heap.integer? ((h.flip num).set p (.ratio (negateVal num) den)) den = some y1 :=
    integer?_set_ratio _ hp1 hy1
  refine ⟨(Heap.flip ((h.flip num).set p (.ratio (negateVal num) den)) den).set p
    (.ratio (negateVal num) (negateVal den)), ?_, by simp, ?_, ?_⟩
  · refine (bind_run (readRatio_run (v := .ptr p) hp)).trans ?_
    refine (bind_run (sexpNegate_run flo hx)).trans ?_
    refine (bind_run (writeObj_run (by simpa using hlt) _)).trans ?_
    refine (bind_run (sexpNegate_run flo hy2)).trans ?_
    exact writeObj_run (by simpa using hlt) _
  · rw [getElem?_set_self (by simpa using hlt)]
  · intro i hi
    rw [getElem?_set_ne (Ne.symm hi), getElem?_flip, getElem?_flip _ den]
    rw [getElem?_set_ne (Ne.symm hi)]

/-- The contents of the numerator once the least fixnum is promoted. -/
def ExactInt.promote : ExactInt → ExactInt
  | fixnum n => if n = sexpMakeFixnum sexpMinFixnum then bignum (sexpFixnumToBignum n) else fixnum n
  | bignum bn => bignum bn

/-- What the adjustment makes of a ratio with contents `x / y`: with a negative
denominator both are negated, unless both are one object. -/
def adjust (shared : Prop) [Decidable shared] (x y : ExactInt) : ExactInt × ExactInt :=
  if y.negative = true then
    if shared then (x, y) else (negateExact x.promote, negateExact y)
  else (x, y)

/-- The objects of the heap after the adjustment. -/
def adjustHeap (negative : Bool) (h : Heap F) (num den : Val) : Heap F :=
  if negative = true then (h.flip num).flip den else h

/-- The part of a ratio before an adjustment and after it: the same value, or in
place of a fixnum one that is no object of the heap before. -/
def SameOrFresh (bound : ℕ) (before after : Val) : Prop :=
  after = before ∨ ((∃ n, before = .fixnum n) ∧ Fresh bound after)

/-- The state the adjustment leaves. -/
structure Adjusted (h h' : Heap F) (p : ℕ) (num den num' den' : Val) (x y : ExactInt) : Prop where
  ratio : h'[p]? = some (.ratio num' den')
  numContents : h'.integer? num' = some (adjust (num = den ∧ x.numType = .big) x y).1
  denContents : h'.integer? den' = some (adjust (num = den ∧ x.numType = .big) x y).2
  num_eq : SameOrFresh h.length num num'
  den_eq : SameOrFresh h.length den den'
  length : h.length ≤ h'.length
  frame : ∀ i < h.length, i ≠ p → h'[i]? = (adjustHeap y.negative h num den)[i]?

theorem negateVal_sameOrFresh (bound : ℕ) (v : Val) : SameOrFresh bound v (negateVal v) := by
  cases v with
  | fixnum n => exact .inr ⟨⟨n, rfl⟩, trivial⟩
  | _ => exact .inl rfl

theorem integer?_negateVal (h' : Heap F) (hx : h.integer? v = some x)
    (hsame : ∀ addr, v = .ptr addr → h'[addr]? = (h.flip v)[addr]?) :
    h'.integer? (negateVal v) = some (negateExact x) := by
  cases x with
  | fixnum n =>
    rw [integer?_eq_some_fixnum_iff] at hx
    subst hx
    rfl
  | bignum bn =>
    have hv : negateVal v = v := by
      rw [integer?_eq_some_bignum_iff] at hx
      cases v with
      | fixnum n => simp [Heap.lookup] at hx
      | _ => rfl
    rw [hv, integer?_congr (h := h.flip v) hsame]
    exact integer?_flip_self hx

private theorem adjusted_plain (hp : h[p]? = some (.ratio num den)) (hx : h.integer? num = some x)
    (hy : h.integer? den = some y) (hneg : y.negative = true)
    (hmin : num ≠ .fixnum (sexpMakeFixnum sexpMinFixnum)) :
    ∃ h', negateRatioParts flo (.ptr p) h = some ((), h') ∧
      Adjusted h h' p num den (negateVal num) (negateVal den) x y := by
  obtain ⟨h', hrun, hlength, hratio, hframe⟩ := negateRatioParts_run flo hp hx hy
  have hnot : ∀ {w : Val} {z : ExactInt} {addr : ℕ}, h.integer? w = some z → w = .ptr addr →
      addr ≠ p := by
    rintro w z addr hz rfl rfl
    exact ne_ptr_of_integer hp hz rfl
  have hpromote : x.promote = x := by
    cases x with
    | fixnum n =>
      rw [integer?_eq_some_fixnum_iff] at hx
      exact if_neg fun hn => hmin (by rw [hx, hn])
    | bignum bn => rfl
  have hbig : ∀ {addr : ℕ}, num = .ptr addr → x.numType = .big := by
    rintro addr rfl
    cases x with
    | fixnum n => simp [integer?_eq_some_fixnum_iff] at hx
    | bignum bn => rfl
  have hcontents :
      h'.integer? (negateVal num) = some (adjust (num = den ∧ x.numType = .big) x y).1 ∧
        h'.integer? (negateVal den) = some (adjust (num = den ∧ x.numType = .big) x y).2 := by
    by_cases hshared : num = den ∧ x.numType = .big
    · -- one object, flipped twice
      rw [adjust, if_pos hneg, if_pos hshared]
      obtain ⟨rfl, hshape⟩ := hshared
      have hsame : h'.integer? num = h.integer? num := by
        apply integer?_congr
        rintro addr rfl
        rw [hframe addr (hnot hx rfl), getElem?_flip, if_pos rfl, getElem?_flip, if_pos rfl,
          Option.map_map]
        simp [Function.comp_def, negateObj_negateObj]
      have hval : negateVal num = num := by
        cases num with
        | fixnum n =>
          obtain rfl := Option.some.inj hx
          simp [ExactInt.numType] at hshape
        | _ => rfl
      rw [hval, hsame]
      exact ⟨hx, hy⟩
    · rw [adjust, if_pos hneg, if_neg hshared, hpromote]
      constructor
      · apply integer?_negateVal h' hx
        rintro addr rfl
        rw [hframe addr (hnot hx rfl), getElem?_flip _ den, if_neg]
        rintro rfl
        exact hshared ⟨rfl, hbig rfl⟩
      · apply integer?_negateVal h' hy
        rintro addr rfl
        rw [hframe addr (hnot hy rfl), getElem?_flip _ (.ptr addr), getElem?_flip h (.ptr addr),
          getElem?_flip h num, if_neg (c := num = .ptr addr)]
        rintro rfl
        exact hshared ⟨rfl, hbig rfl⟩
  refine ⟨h', hrun, hratio, hcontents.1, hcontents.2, negateVal_sameOrFresh _ _,
    negateVal_sameOrFresh _ _, hlength.ge, ?_⟩
  intro i _ hip
  rw [hframe i hip, adjustHeap, if_pos hneg]

/-- The heap once the least fixnum is promoted: one new object, stored into the
ratio. -/
private def promotedHeap (h : Heap F) (p : ℕ) (den : Val) : Heap F :=
  (h ++ [Obj.bignum (sexpFixnumToBignum (sexpMakeFixnum sexpMinFixnum))]).set p
    (.ratio (.ptr h.length) den)

private theorem getElem?_promotedHeap {i : ℕ} (hi : i < h.length) (hip : i ≠ p) :
    (promotedHeap h p den)[i]? = h[i]? := by
  rw [promotedHeap, getElem?_set_ne (Ne.symm hip), getElem?_append_left hi]

private theorem adjusted_promoted
    (hp : h[p]? = some (.ratio (.fixnum (sexpMakeFixnum sexpMinFixnum)) den))
    (hy : h.integer? den = some y) (hneg : y.negative = true) :
    ∃ h', negateRatioParts flo (.ptr p) (promotedHeap h p den) = some ((), h') ∧
      Adjusted h h' p (.fixnum (sexpMakeFixnum sexpMinFixnum)) den (.ptr h.length) (negateVal den)
        (fixnum (sexpMakeFixnum sexpMinFixnum)) y := by
  have hlt : p < h.length := (List.getElem?_eq_some_iff.mp hp).1
  have hdenp : ∀ {addr : ℕ}, den = .ptr addr → addr ≠ p := by
    rintro addr rfl rfl
    exact ne_ptr_of_integer hp hy rfl
  have hne : Val.ptr h.length ≠ den := by
    rintro rfl
    exact absurd (lt_length_of_integer hy) (lt_irrefl _)
  have hp2 : (promotedHeap h p den)[p]? = some (.ratio (.ptr h.length) den) := by
    rw [promotedHeap, getElem?_set_self (by simp; omega)]
  have hx2 : (promotedHeap h p den).integer? (.ptr h.length) =
      some (bignum (sexpFixnumToBignum (sexpMakeFixnum sexpMinFixnum))) := by
    rw [integer?_eq_some_bignum_iff]
    show (promotedHeap h p den)[h.length]? = _
    rw [promotedHeap, getElem?_set_ne (by omega)]
    simp
  have hy2 : (promotedHeap h p den).integer? den = some y := by
    rw [← hy]
    apply integer?_congr
    rintro addr rfl
    exact getElem?_promotedHeap (lt_length_of_integer hy) (hdenp rfl)
  obtain ⟨h', hrun, hlength, hratio, hframe⟩ := negateRatioParts_run flo hp2 hx2 hy2
  refine ⟨h', hrun, hratio, ?_, ?_, .inr ⟨⟨_, rfl⟩, le_refl h.length⟩, negateVal_sameOrFresh _ _, ?_, ?_⟩
  · have hcontents := integer?_negateVal (h := promotedHeap h p den) h' hx2 (by
      rintro addr hptr
      obtain rfl := Val.ptr.inj hptr
      rw [hframe _ (by omega), getElem?_flip _ den, if_neg (Ne.symm hne)])
    show h'.integer? (negateVal (.ptr h.length)) = _
    simpa [adjust, hneg, ExactInt.promote, ExactInt.numType] using hcontents
  · have hcontents := integer?_negateVal (h := promotedHeap h p den) h' hy2 (by
      rintro addr rfl
      rw [hframe _ (hdenp rfl), getElem?_flip _ (.ptr addr), getElem?_flip _ (.ptr addr),
        getElem?_flip _ (.ptr h.length), if_neg hne])
    simpa [adjust, hneg, ExactInt.numType] using hcontents
  · rw [hlength]
    simp [promotedHeap]
  · intro i hi hip
    have hptr : Val.ptr h.length ≠ .ptr i := by
      intro heq
      have := Val.ptr.inj heq
      omega
    rw [hframe i hip, getElem?_flip _ den, getElem?_flip _ (.ptr h.length), if_neg hptr,
      getElem?_promotedHeap hi hip, adjustHeap, if_pos hneg, getElem?_flip _ den]
    rfl

theorem makeDenominatorPositive_run (hp : h[p]? = some (.ratio num den))
    (hx : h.integer? num = some x) (hy : h.integer? den = some y) :
    ∃ num' den' h', makeDenominatorPositive flo (.ptr p) h = some ((), h') ∧
      Adjusted h h' p num den num' den' x y := by
  have hlt : p < h.length := (List.getElem?_eq_some_iff.mp hp).1
  have hread := readRatio_run (v := .ptr p) hp
  have hsign := sexpExactNegativep_run hy
  cases hneg : y.negative with
  | false =>
    rw [hneg] at hsign
    refine ⟨num, den, h, (bind_run hread).trans (bind_run hsign), hp, ?_, ?_, .inl rfl, .inl rfl,
      le_rfl, ?_⟩
    · simpa [adjust, hneg] using hx
    · simpa [adjust, hneg] using hy
    · intro i _ _
      simp [adjustHeap, hneg]
  | true =>
    rw [hneg] at hsign
    by_cases hmin : num = .fixnum (sexpMakeFixnum sexpMinFixnum)
    · subst hmin
      obtain rfl : x = fixnum (sexpMakeFixnum sexpMinFixnum) := (Option.some.inj hx).symm
      obtain ⟨h', hrun, hadjusted⟩ := adjusted_promoted flo hp hy hneg
      refine ⟨_, _, h', ?_, hadjusted⟩
      refine (bind_run hread).trans ((bind_run hsign).trans ?_)
      refine (bind_run (show alloc _ h = some _ from rfl)).trans ?_
      exact (bind_run (writeObj_run (by simp; omega) _)).trans hrun
    · obtain ⟨h', hrun, hadjusted⟩ := adjusted_plain flo hp hx hy hneg hmin
      refine ⟨_, _, h', ?_, hadjusted⟩
      refine (bind_run hread).trans ((bind_run hsign).trans ?_)
      simp only [if_true, if_neg hmin]
      exact hrun

end Adjustment

/-! ## The loop and the quotients -/

section Reduction

variable (flo : FlonumOps F) (depth : ℕ)

theorem gcdLoop_run {fuel : ℕ} {z : ExactInt} (hloop : gcdInteger fuel x y = some z)
    (hx : h.integer? num = some x) (hy : h.integer? den = some y) :
    Returns (gcdLoop (arith flo (depth + 1)) fuel num den) h fun divisor h' =>
      Extends h h' ∧ h'.integer? divisor = some z := by
  induction fuel generalizing h num den x y with
  | zero => simp [gcdInteger] at hloop
  | succ fuel ih =>
    unfold gcdInteger at hloop
    unfold gcdLoop
    simp only [eq_zero_iff hy]
    split
    · rename_i hzero
      rw [if_pos hzero] at hloop
      exact Returns.pure ⟨Extends.refl h, hx.trans hloop⟩
    · rename_i hzero
      rw [if_neg hzero] at hloop
      cases hrem : remainderInteger x y with
      | none => simp [hrem] at hloop
      | some result =>
        cases result with
        | integer r =>
          simp only [hrem] at hloop
          have hrun : (arith flo (depth + 1)).remainder num den h = allocInt r h := by
            show remainderTable flo (arith flo depth) num den h = _
            rw [remainderTable_integer flo _ hx hy, hrem]
            rfl
          obtain ⟨v, h1, hv, hextends, hr, -⟩ := allocInt_run r h
          refine Returns.of_bind_run (hrun.trans hv) ?_
          have hnext := ih hloop (integer?_of_extends hextends hy) hr
          cases v with
          | exception message => simp [Heap.integer?, Heap.lookup] at hr
          | _ => exact hnext.mono fun _ _ hpost => ⟨hextends.trans hpost.1, hpost.2⟩
        | exception message => simp [hrem] at hloop
        | void => simp [hrem] at hloop

theorem quotient_run {q z : ExactInt} (hquotient : quotientInteger x z = some (.integer q))
    (hx : h.integer? a = some x) (hz : h.integer? b = some z) :
    Returns ((arith flo (depth + 1)).quotient a b) h fun v h' =>
      Extends h h' ∧ h'.integer? v = some q ∧
        (z = fixnum sexpOne ∧ v = a ∨ z ≠ fixnum sexpOne ∧ Fresh h.length v) := by
  have hrun : (arith flo (depth + 1)).quotient a b h = _ :=
    quotientTable_integer flo (arith flo depth) hx hz
  by_cases hone : z = fixnum sexpOne
  · rw [if_pos hone] at hrun
    obtain rfl : x = q := by simpa [quotientInteger, hone] using hquotient
    exact Returns.of_run hrun ⟨Extends.refl h, hx, .inl ⟨hone, rfl⟩⟩
  · rw [if_neg hone, hquotient] at hrun
    obtain ⟨v, h1, hv, hextends, hq, hfresh⟩ := allocInt_run q h
    exact Returns.of_run (hrun.trans hv) ⟨hextends, hq, .inr ⟨hone, hfresh⟩⟩

theorem normalizeVal_run (hx : h.integer? v = some x) :
    ∃ v', normalizeVal v h = some (v', h) ∧ h.integer? v' = some (normalizeInteger x) ∧
      (v' = v ∨ ∃ n, v' = .fixnum n) := by
  unfold normalizeVal
  rw [hx]
  cases x with
  | fixnum n => exact ⟨v, rfl, hx, .inl rfl⟩
  | bignum bn =>
    simp only [normalizeInteger]
    cases hnormal : sexpBignumNormalize bn with
    | fixnum n => exact ⟨.fixnum n, rfl, rfl, .inr ⟨n, rfl⟩⟩
    | bignum c =>
      have hsame : c = bn := by
        rw [sexpBignumNormalize_eq] at hnormal
        split at hnormal
        · simp at hnormal
        · exact (ExactInt.bignum.inj hnormal).symm
      rw [hsame]
      exact ⟨v, rfl, hx, .inl rfl⟩

end Reduction

end ChibiScheme
