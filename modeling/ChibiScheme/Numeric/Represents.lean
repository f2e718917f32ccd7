import ChibiScheme.Numeric.Reduce
import ChibiScheme.Numeric.Tower

/-!
# Representation of numbers, and the integer rows of the tower

`RepInt`, `RepQ` and `RepC` say which integer, rational or exact complex number
a value represents canonically in a heap.  A bignum may carry leading zero
digits.  `WideInt` and `WideQ` are what survives a sign flip in place: a bignum
of magnitude at least `2^62`, a ratio of such integers with a nonzero
denominator.

The rest of the module runs the primitive operations and the integer rows of the
tables: on integers every table is its integer operation on the contents.
-/

namespace ChibiScheme

open Stateful ExactInt

variable {F : Type} {h h' : Heap F} {v a b : Val} {x y : ExactInt}

/-! ## Representation -/

/-- `v` represents the integer `n` canonically. -/
def RepInt (h : Heap F) (v : Val) (n : ℤ) : Prop :=
  ∃ x, h.integer? v = some x ∧ x.Canonical ∧ x.toInt = n

/-- `v` is a ratio object in lowest terms with denominator above one. -/
def RepRatio (h : Heap F) (v : Val) (q : ℚ) : Prop :=
  ∃ num den m d, h.lookup v = some (.ratio num den) ∧ RepInt h num m ∧ RepInt h den d ∧ 1 < d ∧
    Int.gcd m d = 1 ∧ q = m / d

/-- `v` represents the rational `q` canonically: an integer as an integer, any
other rational as a ratio. -/
def RepQ (h : Heap F) (v : Val) (q : ℚ) : Prop :=
  (∃ n : ℤ, RepInt h v n ∧ q = n) ∨ RepRatio h v q

/-- `v` holds an integer whose bignum has magnitude at least `2^62`. -/
def WideInt (h : Heap F) (v : Val) (x : ExactInt) : Prop :=
  h.integer? v = some x ∧ x.Wide

/-- A value that is no pointer to an object below `bound`. -/
def Fresh (bound : ℕ) : Val → Prop
  | .ptr addr => bound ≤ addr
  | _ => True

/-- Nothing below `bound` has changed. -/
def SameBelow (bound : ℕ) (h h' : Heap F) : Prop :=
  h.length ≤ h'.length ∧ ∀ i < bound, h'[i]? = h[i]?

theorem SameBelow.refl (bound : ℕ) (h : Heap F) : SameBelow bound h h :=
  ⟨le_rfl, fun _ _ => rfl⟩

theorem SameBelow.trans {bound : ℕ} {h₁ h₂ h₃ : Heap F} (h12 : SameBelow bound h₁ h₂)
    (h23 : SameBelow bound h₂ h₃) : SameBelow bound h₁ h₃ :=
  ⟨h12.1.trans h23.1, fun i hi => (h23.2 i hi).trans (h12.2 i hi)⟩

theorem SameBelow.mono {bound bound' : ℕ} (hsame : SameBelow bound h h') (hle : bound' ≤ bound) :
    SameBelow bound' h h' :=
  ⟨hsame.1, fun i hi => hsame.2 i (hi.trans_le hle)⟩

/-- Every object of `h` is still there. -/
def Extends (h h' : Heap F) : Prop := SameBelow h.length h h'

theorem Extends.refl (h : Heap F) : Extends h h := SameBelow.refl _ h

theorem Extends.trans {h₁ h₂ h₃ : Heap F} (h12 : Extends h₁ h₂) (h23 : Extends h₂ h₃) :
    Extends h₁ h₃ :=
  SameBelow.trans h12 (h23.mono h12.1)

theorem Extends.append (h : Heap F) (objects : List (Obj F)) : Extends h (h ++ objects) :=
  ⟨by simp, fun i hi => List.getElem?_append_left hi⟩

theorem Fresh.mono {bound bound' : ℕ} (hfresh : Fresh bound v) (hle : bound' ≤ bound) :
    Fresh bound' v := by
  cases v with
  | ptr addr => exact hle.trans hfresh
  | _ => trivial

/-! ## Lookups along extensions of the heap -/

theorem lookup_of_extends (hextends : Extends h h') {object : Obj F}
    (hlookup : h.lookup v = some object) : h'.lookup v = some object := by
  cases v with
  | ptr addr =>
    have hlt : addr < h.length := (List.getElem?_eq_some_iff.mp hlookup).1
    exact (hextends.2 addr hlt).trans hlookup
  | _ => exact hlookup

theorem integer?_eq_some_bignum_iff {bn : Bignum} :
    h.integer? v = some (.bignum bn) ↔ h.lookup v = some (.bignum bn) := by
  cases v with
  | ptr addr =>
    unfold Heap.integer?
    simp only
    split
    · rename_i c hc
      simp [hc]
    · rename_i hnone
      simp only [reduceCtorEq, false_iff]
      exact fun hc => hnone bn hc
  | _ => simp [Heap.integer?, Heap.lookup]

theorem integer?_eq_some_fixnum_iff {n : Fixnum} :
    h.integer? v = some (.fixnum n) ↔ v = .fixnum n := by
  cases v with
  | fixnum m => simp [Heap.integer?]
  | ptr addr =>
    unfold Heap.integer?
    simp only
    split <;> simp
  | _ => simp [Heap.integer?, Heap.lookup]

theorem lookup_ne_ratio {num den : Val} (hx : h.integer? v = some x) :
    h.lookup v ≠ some (.ratio num den) := by
  intro hlookup
  cases x with
  | fixnum n =>
    rw [integer?_eq_some_fixnum_iff] at hx
    simp [hx, Heap.lookup] at hlookup
  | bignum bn =>
    rw [integer?_eq_some_bignum_iff, hlookup] at hx
    simp at hx

theorem integer?_of_extends (hextends : Extends h h') (hx : h.integer? v = some x) :
    h'.integer? v = some x := by
  cases x with
  | fixnum n =>
    rw [integer?_eq_some_fixnum_iff] at hx ⊢
    exact hx
  | bignum bn =>
    rw [integer?_eq_some_bignum_iff] at hx ⊢
    exact lookup_of_extends hextends hx

theorem WideInt.of_extends (hextends : Extends h h') (hv : WideInt h v x) : WideInt h' v x :=
  ⟨integer?_of_extends hextends hv.1, hv.2⟩

theorem RepInt.wide {n : ℤ} (hv : RepInt h v n) : ∃ x, WideInt h v x ∧ x.toInt = n := by
  obtain ⟨x, hx, hcanonical, hvalue⟩ := hv
  exact ⟨x, ⟨hx, hcanonical.wide⟩, hvalue⟩

/-! ## Runs of the primitive operations -/

/-- `sexp_number_type` of an integer. -/
def ExactInt.numType : ExactInt → NumType
  | fixnum _ => .fix
  | bignum _ => .big

theorem numberType_integer (hx : h.integer? v = some x) :
    numberType v h = some (x.numType, h) := by
  cases x with
  | fixnum n =>
    rw [integer?_eq_some_fixnum_iff] at hx
    rw [hx]
    rfl
  | bignum bn =>
    rw [integer?_eq_some_bignum_iff] at hx
    obtain ⟨addr, rfl⟩ := Heap.ptr_of_lookup hx
    simp only [numberType, hx, ExactInt.numType]

theorem readInt_run (hx : h.integer? v = some x) : readInt v h = some (x, h) := by
  rw [readInt, hx]
  rfl

theorem allocInt_run (x : ExactInt) (h : Heap F) :
    Returns (allocInt x) h fun v h' =>
      Extends h h' ∧ h'.integer? v = some x ∧ Fresh h.length v := by
  cases x with
  | fixnum n => exact Returns.pure ⟨Extends.refl h, rfl, trivial⟩
  | bignum bn =>
    refine Returns.of_run rfl ⟨Extends.append h _, ?_, le_rfl⟩
    rw [integer?_eq_some_bignum_iff]
    simp [Heap.lookup]

theorem readRatio_run {num den : Val} (hlookup : h.lookup v = some (.ratio num den)) :
    readRatio v h = some ((num, den), h) := by
  obtain ⟨addr, rfl⟩ := Heap.ptr_of_lookup hlookup
  have hread : readObj (.ptr addr) h = some (.ratio num den, h) := by
    show (h[addr]?).map _ = _
    rw [show h[addr]? = _ from hlookup]
    rfl
  exact bind_run hread

theorem readComplex_run {real imag : Val} (hlookup : h.lookup v = some (.complex real imag)) :
    readComplex v h = some ((real, imag), h) := by
  obtain ⟨addr, rfl⟩ := Heap.ptr_of_lookup hlookup
  have hread : readObj (.ptr addr) h = some (.complex real imag, h) := by
    show (h[addr]?).map _ = _
    rw [show h[addr]? = _ from hlookup]
    rfl
  exact bind_run hread

theorem writeObj_run {addr : ℕ} (hlt : addr < h.length) (object : Obj F) :
    writeObj (.ptr addr) object h = some ((), h.set addr object) := by
  show (if addr < h.length then _ else _) = _
  rw [if_pos hlt]

/-! ## The integer rows -/

section IntegerRows

variable (flo : FlonumOps F) (inner : Arith F)

private theorem integerRow_run (op : ExactInt → ExactInt → ExactInt)
    (hx : h.integer? a = some x) (hy : h.integer? b = some y) :
    integerRow op a b h = allocInt (op x y) h := by
  unfold integerRow
  rw [bind_run (readInt_run hx), bind_run (readInt_run hy)]

theorem addTable_integer (hx : h.integer? a = some x) (hy : h.integer? b = some y) :
    addTable flo inner a b h = allocInt (addInteger x y) h := by
  unfold addTable
  rw [bind_run (numberType_integer hx), bind_run (numberType_integer hy)]
  cases x <;> cases y
  · exact integerRow_run addInteger hx hy
  · exact integerRow_run addInteger hx hy
  · have hswapped := integerRow_run addInteger hy hx
    exact hswapped
  · exact integerRow_run addInteger hx hy

theorem subTable_integer (hx : h.integer? a = some x) (hy : h.integer? b = some y) :
    subTable flo inner a b h = allocInt (subInteger x y) h := by
  unfold subTable
  rw [bind_run (numberType_integer hx), bind_run (numberType_integer hy)]
  cases x <;> cases y <;> exact integerRow_run subInteger hx hy

theorem mulTable_integer (hx : h.integer? a = some x) (hy : h.integer? b = some y) :
    mulTable flo inner a b h = allocInt (mulInteger x y) h := by
  unfold mulTable
  rw [bind_run (numberType_integer hx), bind_run (numberType_integer hy)]
  cases x <;> cases y
  · exact integerRow_run mulInteger hx hy
  · exact integerRow_run mulInteger hx hy
  · have hswapped := integerRow_run mulInteger hy hx
    exact hswapped
  · exact integerRow_run mulInteger hx hy

private theorem divisionTable_integer (op : ExactInt → ExactInt → Option IntResult)
    (self : Val → Val → NumM F Val) (isInteger : F → Bool) (hx : h.integer? a = some x)
    (hy : h.integer? b = some y) :
    divisionTable flo op self isInteger a b h = allocResult (op x y) h := by
  unfold divisionTable
  rw [bind_run (numberType_integer hx), bind_run (numberType_integer hy)]
  cases x <;> cases y <;>
    exact (bind_run (readInt_run hx)).trans (bind_run (readInt_run hy))

theorem eq_one_iff (hy : h.integer? b = some y) : b = .one ↔ y = fixnum sexpOne := by
  cases y with
  | fixnum n =>
    rw [integer?_eq_some_fixnum_iff] at hy
    rw [hy]
    simp [Val.one]
  | bignum bn =>
    rw [integer?_eq_some_bignum_iff] at hy
    constructor
    · rintro rfl
      simp [Val.one, Heap.lookup] at hy
    · simp

theorem eq_zero_iff (hy : h.integer? b = some y) : b = .zero ↔ y = fixnum sexpZero := by
  cases y with
  | fixnum n =>
    rw [integer?_eq_some_fixnum_iff] at hy
    rw [hy]
    simp [Val.zero]
  | bignum bn =>
    rw [integer?_eq_some_bignum_iff] at hy
    constructor
    · rintro rfl
      simp [Val.zero, Heap.lookup] at hy
    · simp

theorem quotientTable_integer (hx : h.integer? a = some x) (hy : h.integer? b = some y) :
    quotientTable flo inner a b h =
      if y = fixnum sexpOne then some (a, h) else allocResult (quotientInteger x y) h := by
  unfold quotientTable
  simp only [eq_one_iff hy]
  split
  · rfl
  · exact divisionTable_integer flo _ _ _ hx hy

theorem remainderTable_integer (hx : h.integer? a = some x) (hy : h.integer? b = some y) :
    remainderTable flo inner a b h = allocResult (remainderInteger x y) h := by
  unfold remainderTable
  simp only [eq_one_iff hy]
  split
  · rename_i hone
    rw [hone]
    rfl
  · exact divisionTable_integer flo _ _ _ hx hy

end IntegerRows

end ChibiScheme
