import ChibiScheme.Numeric.Bignum

/-!
# Lists to uniform vectors

`sexp_list_to_uvector_op` compares every element with the least and the largest number of the
element type, and stores the elements if all of them pass.  The comparisons read one machine word
of an element.  Of a bignum that is the lowest digit, with the sign of the number in
`sexp_sint_value`, so a bignum passes when its lowest word does.
-/

namespace ChibiScheme.Uvector

open List ExactInt

/-- `enum sexp_uniform_vector_type`. -/
inductive ElementType where
  | u1 | s8 | u8 | s16 | u16 | s32 | u32 | s64 | u64
  | f32 | f64 | c64 | c128 | f8 | f16
  deriving DecidableEq

/-- `sexp_uvector_sizes` -/
def elementSize : ElementType → ℕ
  | .u1 => 1
  | .s8 | .u8 | .f8 => 8
  | .s16 | .u16 | .f16 => 16
  | .s32 | .u32 | .f32 => 32
  | .s64 | .u64 | .f64 | .c64 => 64
  | .c128 => 128

/-- `sexp_uvector_chars` -/
def elementPrefix : ElementType → Char
  | .u1 | .u8 | .u16 | .u32 | .u64 => 'u'
  | .s8 | .s16 | .s32 | .s64 => 's'
  | .f8 | .f16 | .f32 | .f64 => 'f'
  | .c64 | .c128 => 'c'

/-- `min` -/
def rangeMin (et : ElementType) : ℤ :=
  if elementPrefix et = 's' then -2 ^ (elementSize et - 1) else 0

/-- `max` -/
def rangeMax (et : ElementType) : ℤ :=
  if elementPrefix et = 's' then 2 ^ (elementSize et - 1) - 1 else 2 ^ elementSize et - 1

/-- `sexp_sint_value`: the digit is multiplied by the sign as a word. -/
def sexpSintValue : ExactInt → ℤ
  | fixnum n => n.val
  | bignum b => Int.bmod (b.sign.toInt * (b.digit 0).toNat) (2 ^ 64)

/-- `sexp_uint_value` -/
def sexpUintValue : ExactInt → ℤ
  | fixnum n => n.val % 2 ^ 64
  | bignum b => (b.digit 0).toNat

/-- The elements are integers. -/
def integral (et : ElementType) : Bool :=
  elementPrefix et = 'u' || elementPrefix et = 's'

/-- `sexp_sint_value(tmp) >= min`, where an unsigned type looks at the sign of a bignum. -/
def aboveMin (et : ElementType) : ExactInt → Bool
  | fixnum n => decide (rangeMin et ≤ sexpSintValue (fixnum n))
  | bignum b =>
    if rangeMin et = 0 then decide (b.sign = .pos)
    else decide (rangeMin et ≤ sexpSintValue (bignum b))

/-- The test of one element.  Real and complex element types take every number. -/
def accepts (et : ElementType) (x : ExactInt) : Bool :=
  if integral et then
    aboveMin et x && (decide (sexpSintValue x < 0) || decide (sexpUintValue x ≤ rangeMax et))
  else true

/-- What the machine adds: `sexp_unbox_fixnum` of the address of a bignum, and the real number
that an element of a real or complex type holds after an integer was stored in it. -/
structure Machine where
  unboxAddress : Bignum → ℤ
  round : ElementType → ℤ → ℚ

/-- What an element of a uniform vector holds. -/
inductive Element where
  | word (bits : ℤ)
  | real (q : ℚ)

/-- `sexp_unbox_fixnum` of a word, which for a bignum is its address. -/
def unbox (m : Machine) : ExactInt → ℤ
  | fixnum n => n.val
  | bignum b => m.unboxAddress b

/-- The element that is stored for a number. -/
def storeElement (m : Machine) (et : ElementType) (x : ExactInt) : Element :=
  match et with
  | .u1 => .word (if unbox m x = 0 then 0 else 1)
  | .s8 | .u8 | .s16 | .u16 => .word (unbox m x % 2 ^ elementSize et)
  | .s32 | .s64 => .word (sexpSintValue x % 2 ^ elementSize et)
  | .u32 | .u64 => .word (sexpUintValue x % 2 ^ elementSize et)
  | _ => .real (m.round et x.toInt)

/-- The number that an element is read as. -/
def readElement (et : ElementType) : Element → ℚ
  | .word bits => if elementPrefix et = 's' then Int.bmod bits (2 ^ elementSize et) else bits
  | .real q => q

/-- The irritants of the exception "invalid uniform vector value". -/
structure Invalid where
  min : ℤ
  max : ℤ
  value : ExactInt

/-- `sexp_list_to_uvector_op` on a list of exact integers. -/
def listToUvector (m : Machine) (et : ElementType) (xs : List ExactInt) :
    Except Invalid (List Element) :=
  match xs.find? fun x => !accepts et x with
  | some x => .error ⟨rangeMin et, rangeMax et, x⟩
  | none => .ok (xs.map (storeElement m et))

/-! ## When the elements are kept -/

/-- Every integer is in the range of a real or complex type. -/
def InRange (et : ElementType) (z : ℤ) : Prop :=
  integral et → rangeMin et ≤ z ∧ z ≤ rangeMax et

/-- The conversion succeeds exactly if every integer is in range, and the elements read back are
the integers. -/
def Faithful (m : Machine) (et : ElementType) (xs : List ExactInt) : Prop :=
  match listToUvector m et xs with
  | .ok v => (∀ x ∈ xs, InRange et x.toInt) ∧
      v.map (readElement et) = xs.map fun x => (x.toInt : ℚ)
  | .error _ => ∃ x ∈ xs, ¬ InRange et x.toInt

/-- A number beyond the fixnums and out of range whose lowest word is taken for it. -/
def Mistaken (et : ElementType) (z : ℤ) : Prop :=
  integral et ∧ ¬ InRange et z ∧ ¬ InFixnumRange z ∧
    if elementPrefix et = 's' then
      rangeMin et ≤ Int.bmod z (2 ^ 64) ∧
        (Int.bmod z (2 ^ 64) < 0 ∨ z.natAbs % 2 ^ 64 ≤ rangeMax et)
    else 0 < z ∧ (2 ^ 63 ≤ z % 2 ^ 64 ∨ z % 2 ^ 64 ≤ rangeMax et)

theorem magnitude_mod (b : Bignum) : b.magnitude % 2 ^ 64 = (b.digit 0).toNat := by
  unfold Bignum.magnitude Bignum.digit
  cases b.data with
  | nil => rfl
  | cons word words =>
    have hlt := word.toNat_lt
    rw [Limbs.value_cons, Limbs.base]
    simp

theorem bmod_word (z : ℤ) : Int.bmod z (2 ^ 64) =
    if z % 2 ^ 64 < 2 ^ 63 then z % 2 ^ 64 else z % 2 ^ 64 - 2 ^ 64 := by
  rw [Int.bmod]
  rfl

theorem sexpSintValue_eq (x : ExactInt) : sexpSintValue x = Int.bmod x.toInt (2 ^ 64) := by
  cases x with
  | fixnum n =>
    have hrange := (inFixnumRange_iff _).mp n.range
    rw [sexpSintValue, toInt_fixnum, bmod_word]
    split <;> omega
  | bignum b =>
    have hdigit := magnitude_mod b
    have hmod : b.sign.toInt * (b.digit 0).toNat % (2 ^ 64 : ℕ) = b.toInt % (2 ^ 64 : ℕ) := by
      unfold Bignum.toInt
      cases b.sign <;> (simp only [Sign.toInt]; omega)
    rw [sexpSintValue, toInt_bignum, Int.bmod, Int.bmod, hmod]

theorem sign_eq_pos_iff {b : Bignum} (hb : (bignum b).Canonical) : b.sign = .pos ↔ 0 < b.toInt := by
  have hwide : 2 ^ 62 ≤ b.magnitude := ExactInt.Canonical.wide hb
  unfold Bignum.toInt
  cases b.sign <;> simp [Sign.toInt]
  omega

theorem sexpUintValue_bignum (b : Bignum) :
    sexpUintValue (bignum b) = (b.toInt.natAbs % 2 ^ 64 : ℕ) := by
  rw [b.natAbs_toInt, magnitude_mod]
  rfl

theorem rangeMin_cases {et : ElementType} (hintegral : integral et = true) :
    elementPrefix et ≠ 's' ∧ rangeMin et = 0 ∧ 0 ≤ rangeMax et ∨
      elementPrefix et = 's' ∧ rangeMin et < 0 ∧ -2 ^ 63 ≤ rangeMin et ∧ 0 ≤ rangeMax et ∧
        rangeMax et < 2 ^ 63 := by
  cases et <;> revert hintegral <;> decide

theorem accepts_iff {et : ElementType} (hintegral : integral et = true) {x : ExactInt}
    (hx : x.Canonical) : accepts et x = true ↔ InRange et x.toInt ∨ Mistaken et x.toInt := by
  have hbounds := rangeMin_cases hintegral
  have hsint := sexpSintValue_eq x
  rw [accepts, if_pos hintegral]
  simp only [Bool.and_eq_true, Bool.or_eq_true, decide_eq_true_eq, Mistaken, InRange, hintegral,
    forall_const, true_and]
  cases x with
  | fixnum n =>
    have hrange := (inFixnumRange_iff _).mp n.range
    have hmin : aboveMin et (fixnum n) = true ↔ rangeMin et ≤ n.val := decide_eq_true_iff
    rw [hmin, sexpSintValue, sexpUintValue]
    simp only [toInt_fixnum, n.range, not_true, false_and, and_false, or_false]
    omega
  | bignum b =>
    have hout : ¬ InFixnumRange b.toInt := hx
    have hwide := (inFixnumRange_iff b.toInt).not.mp hout
    simp only [aboveMin, hsint, toInt_bignum, sexpUintValue_bignum, hout, not_false_eq_true,
      true_and, bmod_word]
    obtain ⟨hdigits, hmin, hmax⟩ | ⟨hdigits, hbounds⟩ := hbounds
    · simp only [if_pos hmin, if_neg hdigits, decide_eq_true_eq, sign_eq_pos_iff hx]
      split <;> omega
    · simp only [if_neg hbounds.1.ne, if_pos hdigits, decide_eq_true_eq]
      split <;> omega

theorem storeElement_eq (m : Machine) {et : ElementType} (hintegral : integral et = true)
    {x : ExactInt} (hx : x.Canonical) (hrange : InRange et x.toInt) :
    storeElement m et x = .word (x.toInt % 2 ^ elementSize et) := by
  have hrange := hrange hintegral
  cases x with
  | fixnum n =>
    rw [toInt_fixnum] at hrange ⊢
    cases et <;> simp [rangeMin, rangeMax, elementPrefix, elementSize, storeElement, unbox,
      sexpSintValue, sexpUintValue, integral] at hintegral hrange ⊢
    split_ifs <;> omega
  | bignum b =>
    have hwide := (inFixnumRange_iff b.toInt).not.mp hx
    have huint := sexpUintValue_bignum b
    rw [toInt_bignum] at hrange ⊢
    cases et <;> simp [rangeMin, rangeMax, elementPrefix, elementSize, storeElement, huint,
      sexpSintValue_eq, integral] at hintegral hrange ⊢
    case s64 => exact Int.bmod_emod
    case u64 => rw [abs_of_nonneg hrange.1]
    all_goals omega

theorem read_store (m : Machine) {et : ElementType} (hintegral : integral et = true)
    {x : ExactInt} (hx : x.Canonical) (hrange : InRange et x.toInt) :
    readElement et (storeElement m et x) = x.toInt := by
  rw [storeElement_eq m hintegral hx hrange]
  have hrange := hrange hintegral
  generalize x.toInt = z at *
  cases et <;> simp [rangeMin, rangeMax, elementPrefix, elementSize, readElement,
    integral] at hintegral hrange ⊢
  case s8 | s16 | s32 | s64 =>
    rw [Int.bmod]
    split_ifs <;> omega
  all_goals omega

/-! ## Whole lists -/

/-- When a list is converted as it should be: no element is mistaken, or another one is rejected.
A real or complex type has to represent every integer of the list. -/
def Convertible (m : Machine) (et : ElementType) (xs : List ExactInt) : Prop :=
  (∀ x ∈ xs, ¬ Mistaken et x.toInt ∧ (integral et ∨ m.round et x.toInt = x.toInt)) ∨
    ∃ x ∈ xs, ¬ InRange et x.toInt ∧ ¬ Mistaken et x.toInt

/-- A list is converted faithfully, or rightly rejected, if and only if it is convertible. -/
theorem listToUvector_iff (m : Machine) (et : ElementType) (xs : List ExactInt)
    (hxs : ∀ x ∈ xs, x.Canonical) : Faithful m et xs ↔ Convertible m et xs := by
  unfold Faithful listToUvector Convertible
  cases hfind : xs.find? fun x => !accepts et x with
  | some x =>
    have hmem : x ∈ xs := mem_of_find?_eq_some hfind
    have hrejected : accepts et x ≠ true := by simpa using find?_some hfind
    have hintegral : integral et = true := by
      by_contra hreal
      exact hrejected (by rw [accepts, if_neg hreal])
    rw [Ne, accepts_iff hintegral (hxs x hmem), not_or] at hrejected
    exact iff_of_true ⟨x, hmem, hrejected.1⟩ (.inr ⟨x, hmem, hrejected⟩)
  | none =>
    -- every number passes the test: what is stored is read back if it is in range
    have haccepts : ∀ x ∈ xs, accepts et x = true := by simpa using hfind
    simp only [map_map, map_inj_left, Function.comp_apply]
    by_cases hintegral : integral et = true
    · have hcases : ∀ x ∈ xs, InRange et x.toInt ∨ Mistaken et x.toInt :=
        fun x hx => (accepts_iff hintegral (hxs x hx)).mp (haccepts x hx)
      constructor
      · rintro ⟨hrange, -⟩
        exact .inl fun x hx => ⟨fun hmistaken => hmistaken.2.1 (hrange x hx), .inl hintegral⟩
      · rintro (hplain | ⟨x, hx, hout, hplain⟩)
        · have hrange : ∀ x ∈ xs, InRange et x.toInt :=
            fun x hx => (hcases x hx).resolve_right (hplain x hx).1
          exact ⟨hrange, fun x hx => read_store m hintegral (hxs x hx) (hrange x hx)⟩
        · exact absurd (hcases x hx) (by simp [hout, hplain])
    · have hrange : ∀ z, InRange et z := fun z hz => absurd hz hintegral
      have hstore : ∀ x, readElement et (storeElement m et x) = m.round et x.toInt := by
        intro x
        cases et <;> first | rfl | exact absurd rfl hintegral
      simp [hrange, hstore, hintegral, Mistaken]

/-- A machine whose addresses are zero and whose reals hold every integer. -/
def plainMachine : Machine := ⟨fun _ => 0, fun _ z => z⟩

/-- The ends of the range of `s8` are converted. -/
theorem listToUvector_small :
    Faithful plainMachine .s8 [fixnum ⟨-128, by decide⟩, fixnum ⟨127, by decide⟩] := by
  refine (listToUvector_iff _ _ _ (by simp [Canonical])).mpr (.inl ?_)
  simp [Mistaken, InRange, integral, elementPrefix, rangeMin, rangeMax, elementSize]

/-- `(list->uvector 9 (list (expt 2 64)))` makes the vector `#u64(0)`. -/
theorem listToUvector_wide : (bignum ⟨.pos, [0, 1]⟩).Canonical ∧
    listToUvector plainMachine .u64 [bignum ⟨.pos, [0, 1]⟩] = .ok [.word 0] ∧
    ¬ Faithful plainMachine .u64 [bignum ⟨.pos, [0, 1]⟩] := by
  have hvalue : (⟨.pos, [0, 1]⟩ : Bignum).toInt = 2 ^ 64 := by
    simp [Bignum.toInt, Bignum.magnitude, Sign.toInt, Limbs.base]
  have hok : listToUvector plainMachine .u64 [bignum ⟨.pos, [0, 1]⟩] = .ok [.word 0] := rfl
  refine ⟨?_, hok, ?_⟩
  · show ¬ InFixnumRange _
    rw [hvalue, inFixnumRange_iff]
    omega
  · intro hfaithful
    unfold Faithful at hfaithful
    rw [hok] at hfaithful
    have hrange := (hfaithful.1 _ (mem_singleton_self _) rfl).2
    rw [toInt_bignum, hvalue] at hrange
    simp [rangeMax, elementPrefix, elementSize] at hrange

end ChibiScheme.Uvector
