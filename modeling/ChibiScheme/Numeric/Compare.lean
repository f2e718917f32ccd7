import Mathlib
import ChibiScheme.Numeric.Rational

/-!
# Comparison of exact rationals

`sexp_compare` on integers boxes a difference, on ratios it compares the cross
products, and with the operands in the other order of their classes it negates
what the opposite comparison returns.  Both the boxing and the negation lose the
sign when the number they are given is outside the range they were meant for;
`CompareSafe` says when that happens to no intermediate result.

The virtual machine's `<`, `<=` and `=` compare two fixnums as machine words and
leave every other pair to `sexp_compare`.
-/

namespace ChibiScheme

open Stateful ExactInt Limbs

variable {F : Type} {h h' : Heap F} {v a b : Val} {x y : ExactInt} {p q : ℚ} {m d : ℤ}

/-! ## The opcodes -/

section Opcodes

variable (arith : Arith F)

/-- What an opcode makes of the result of `sexp_compare`: comparing with a NaN is
false, any other exception is raised. -/
def compareResult (test : Fixnum → Bool) : Val → NumM F (Except String Bool)
  | .exception message =>
    pure (if message = "can't compare NaN" then .ok false else .error message)
  | .fixnum r => pure (.ok (test r))
  | _ => undefined

/-- `SEXP_OP_LT` -/
def sexpOpLt : Val → Val → NumM F (Except String Bool)
  | .fixnum m, .fixnum n => pure (.ok (decide (m.val < n.val)))
  | a, b => do compareResult (fun r => decide (r.val < 0)) (← arith.compare a b)

/-- `SEXP_OP_LE` -/
def sexpOpLe : Val → Val → NumM F (Except String Bool)
  | .fixnum m, .fixnum n => pure (.ok (decide (m.val ≤ n.val)))
  | a, b => do compareResult (fun r => decide (r.val ≤ 0)) (← arith.compare a b)

/-- The end of `SEXP_OP_EQN`, for operands that are not complex. -/
def eqnReals (a b : Val) : NumM F (Except String Bool) := do
  compareResult (fun r => decide (r = sexpZero)) (← arith.compare a b)

/-- The test of `SEXP_OP_EQN` for an imaginary part that is a flonum zero. -/
def imagIsZero (flo : FlonumOps F) (imag : Val) : NumM F Bool := do
  if (← numberType imag) = .flo then
    let x ← readFlonum imag
    pure (flo.eq x flo.zero)
  else pure false

/-- `SEXP_OP_EQN` once the first operand is not complex, or no number. -/
def eqnSecond (flo : FlonumOps F) (a b : Val) : NumM F (Except String Bool) := do
  if (← numberType b) = .cpx then
    let (real, imag) ← readComplex b
    if ← imagIsZero flo imag then eqnReals arith a real
    else if (← numberType a) = .not then eqnReals arith a b
    else pure (.ok false)
  else eqnReals arith a b

/-- `SEXP_OP_EQN` for operands that are not both fixnums. -/
def eqnFirst (flo : FlonumOps F) (a b : Val) : NumM F (Except String Bool) := do
  if (← numberType a) = .cpx then
    let (real, imag) ← readComplex a
    if ← imagIsZero flo imag then eqnSecond arith flo real b
    else
      match ← numberType b with
      | .cpx =>
        let (breal, bimag) ← readComplex b
        let r ← arith.compare real breal
        if r = .zero then pure (.ok (decide ((← arith.compare imag bimag) = .zero)))
        else pure (.ok false)
      | .not => eqnSecond arith flo a b
      | _ => pure (.ok false)
  else eqnSecond arith flo a b

/-- `SEXP_OP_EQN` -/
def sexpOpEqn (flo : FlonumOps F) : Val → Val → NumM F (Except String Bool)
  | .fixnum m, .fixnum n => pure (.ok (decide (m = n)))
  | a, b => eqnFirst arith flo a b

end Opcodes

/-! ## Boxed differences -/

theorem sign_sexpMakeFixnum_iff {n : ℤ} (hlow : -2 ^ 63 < n) (hhigh : n < 2 ^ 63) :
    (sexpMakeFixnum n).val.sign = n.sign ↔ InFixnumRange n := by
  constructor
  · intro hsign
    have hval : (sexpMakeFixnum n).val = Int.bmod n (2 ^ 63) := rfl
    have hbounds := (sexpMakeFixnum n).bounds
    rw [inFixnumRange_iff]
    -- a residue that moved is on the other side of zero
    have hcases : Int.bmod n (2 ^ 63) = n ∨ Int.bmod n (2 ^ 63) = n - 2 ^ 63 ∨
        Int.bmod n (2 ^ 63) = n + 2 ^ 63 := by
      obtain ⟨k, hk⟩ := Int.dvd_self_sub_bmod (x := n) (m := 2 ^ 63)
      omega
    rcases Int.lt_trichotomy n 0 with hneg | hzero | hpos
    · rw [Int.sign_eq_neg_one_of_neg hneg, Int.sign_eq_neg_one_iff_neg] at hsign
      omega
    · omega
    · rw [Int.sign_eq_one_of_pos hpos, Int.sign_eq_one_iff_pos] at hsign
      omega
  · intro hrange
    rw [sexpMakeFixnum_val hrange]

/-! ## Integers -/

/-- The number of words an integer takes. -/
def ExactInt.words : ExactInt → ℕ
  | fixnum _ => 1
  | bignum bn => sexpBignumHi bn

theorem natAbs_lt_words (x : ExactInt) : x.toInt.natAbs < base ^ x.words := by
  cases x with
  | fixnum n =>
    have hle := n.natAbs_le
    show n.val.natAbs < base ^ 1
    rw [pow_one, show base = 2 ^ 64 from rfl]
    omega
  | bignum bn =>
    rw [toInt_bignum, bn.natAbs_toInt]
    exact magnitude_lt_base_pow_hi bn

theorem one_le_words (x : ExactInt) : 1 ≤ x.words := by
  cases x with
  | fixnum n => exact le_rfl
  | bignum bn => exact one_le_sexpBignumHi bn

theorem words_mulInteger_le (x y : ExactInt) : (mulInteger x y).words ≤ x.words + y.words := by
  have hvalue := (mulInteger_spec x y).1
  have hx := natAbs_lt_words x
  have hy := natAbs_lt_words y
  have hx1 := one_le_words x
  cases hproduct : mulInteger x y with
  | fixnum n =>
    show 1 ≤ _
    omega
  | bignum bn =>
    rw [hproduct, toInt_bignum] at hvalue
    apply sexpBignumHi_le_of_magnitude_lt (by omega)
    rw [← bn.natAbs_toInt, hvalue, Int.natAbs_mul, pow_add]
    exact Nat.mul_lt_mul'' hx hy

private theorem natAbs_compareDigits_le (adata bdata : List UInt64) (i : ℕ) :
    (compareDigits adata bdata i).natAbs ≤ 1 := by
  induction i with
  | zero => simp [compareDigits]
  | succ i ih =>
    unfold compareDigits
    split
    · decide
    · split
      · decide
      · exact ih

theorem natAbs_sexpBignumCompare_lt (a b : Bignum) :
    (sexpBignumCompare a b).natAbs < sexpBignumHi a + sexpBignumHi b := by
  have ha := one_le_sexpBignumHi a
  have hb := one_le_sexpBignumHi b
  have habs : (sexpBignumCompareAbs a b).natAbs < sexpBignumHi a + sexpBignumHi b := by
    unfold sexpBignumCompareAbs
    simp only
    split
    · omega
    · have hle := natAbs_compareDigits_le a.data b.data (sexpBignumHi a)
      omega
  unfold sexpBignumCompare
  simp only
  split
  · have hone : a.sign.toInt.natAbs = 1 := by cases a.sign <;> rfl
    omega
  · split
    · omega
    · exact habs

/-- A fixnum and a bignum are never equal. -/
theorem compareFixBig_spec (m : Fixnum) {bn : Bignum} (hbn : (bignum bn).Canonical) :
    (compareFixBig m bn).val.natAbs = 1 ∧
      (compareFixBig m bn).val.sign = (m.val - bn.toInt).sign := by
  have hout : ¬ InFixnumRange bn.toInt := hbn
  rw [inFixnumRange_iff] at hout
  have hbounds := m.bounds
  have hbranch : sexpBignumHi bn > 1 ∨ ((bn.digit 0).toNat : ℤ) > sexpMaxFixnum := by
    by_contra hnot
    rw [not_or, not_lt, not_lt] at hnot
    have hone : sexpBignumHi bn = 1 := le_antisymm hnot.1 (one_le_sexpBignumHi bn)
    have hmagnitude := magnitude_of_hi_eq_one hone
    have hmax : sexpMaxFixnum = 2 ^ 62 - 1 := rfl
    have habs := bn.natAbs_toInt
    omega
  unfold compareFixBig
  rw [if_pos hbranch]
  cases hsign : bn.sign with
  | pos =>
    have hnonneg : 0 ≤ bn.toInt := by simp [Bignum.toInt, hsign]
    rw [if_neg (by decide), Int.sign_eq_neg_one_of_neg (a := _ - _) (by omega)]
    decide
  | neg =>
    have hnonpos : bn.toInt ≤ 0 := by simp [Bignum.toInt, hsign]
    rw [if_pos rfl, Int.sign_eq_one_of_pos (a := _ - _) (by omega)]
    decide

/-- Two fixnums have a fixnum difference; other integers are never subtracted. -/
def DifferenceFits (m n : ℤ) : Prop :=
  InFixnumRange m → InFixnumRange n → InFixnumRange (m - n)

instance (m n : ℤ) : Decidable (DifferenceFits m n) :=
  inferInstanceAs (Decidable (_ → _))

private theorem compareInteger_of_bignum (hx : x.Canonical) (hy : y.Canonical)
    (hwords : x.words + y.words ≤ 2 ^ 62) (hbig : ¬ (x.numType = .fix ∧ y.numType = .fix)) :
    (compareInteger x y).val.sign = (x.toInt - y.toInt).sign ∧
      (compareInteger x y).val.natAbs < 2 ^ 62 ∧ DifferenceFits x.toInt y.toInt := by
  cases x with
  | fixnum m =>
    cases y with
    | fixnum n => exact absurd ⟨rfl, rfl⟩ hbig
    | bignum bn =>
      obtain ⟨habs, hsign⟩ := compareFixBig_spec m hy
      refine ⟨hsign, ?_, fun _ hrange => absurd hrange hy⟩
      show (compareFixBig m bn).val.natAbs < _
      omega
  | bignum bn =>
    cases y with
    | fixnum n =>
      obtain ⟨habs, hsign⟩ := compareFixBig_spec n hx
      have hval := sexpFxNeg_val (compareFixBig n bn) (by omega)
      refine ⟨?_, ?_, fun hrange => absurd hrange hx⟩
      · show (sexpFxNeg (compareFixBig n bn)).val.sign = (bn.toInt - n.val).sign
        rw [hval, Int.sign_neg, hsign, ← Int.sign_neg, neg_sub]
      · show (sexpFxNeg (compareFixBig n bn)).val.natAbs < _
        omega
    | bignum bn' =>
      have hlt := natAbs_sexpBignumCompare_lt bn bn'
      have hwords' : sexpBignumHi bn + sexpBignumHi bn' ≤ 2 ^ 62 := hwords
      have hval := sexpMakeFixnum_val (n := sexpBignumCompare bn bn') (by
        rw [inFixnumRange_iff]
        omega)
      have hwide : 2 ^ 62 ≤ bn.magnitude := hx.wide
      refine ⟨?_, ?_, fun hrange => absurd hrange hx⟩
      · show (sexpMakeFixnum (sexpBignumCompare bn bn')).val.sign = _
        rw [hval, sign_sexpBignumCompare (.inl (by omega))]
        rfl
      · show (sexpMakeFixnum (sexpBignumCompare bn bn')).val.natAbs < _
        omega

theorem sign_compareInteger_iff (hx : x.Canonical) (hy : y.Canonical)
    (hwords : x.words + y.words ≤ 2 ^ 62) :
    (compareInteger x y).val.sign = (x.toInt - y.toInt).sign ↔
      DifferenceFits x.toInt y.toInt := by
  by_cases hfix : x.numType = .fix ∧ y.numType = .fix
  · cases x with
    | fixnum m =>
      cases y with
      | fixnum n =>
        have hm := m.bounds
        have hn := n.bounds
        show (sexpMakeFixnum (m.val - n.val)).val.sign = (m.val - n.val).sign ↔ _
        rw [sign_sexpMakeFixnum_iff (by omega) (by omega)]
        exact ⟨fun hrange _ _ => hrange, fun hfits => hfits m.range n.range⟩
      | bignum bn => simp [ExactInt.numType] at hfix
    | bignum bn => simp [ExactInt.numType] at hfix
  · obtain ⟨hsign, -, hfits⟩ := compareInteger_of_bignum hx hy hwords hfix
    exact iff_of_true hsign hfits

/-- Comparing the other way round and negating is right for the same operands: on
two fixnums both box the difference modulo `2^63`. -/
theorem sign_neg_compareInteger_iff (hx : x.Canonical) (hy : y.Canonical)
    (hwords : x.words + y.words ≤ 2 ^ 62) :
    (sexpFxNeg (compareInteger y x)).val.sign = (x.toInt - y.toInt).sign ↔
      DifferenceFits x.toInt y.toInt := by
  by_cases hfix : y.numType = .fix ∧ x.numType = .fix
  · have hneg : sexpFxNeg (compareInteger y x) = compareInteger x y := by
      cases x with
      | fixnum m =>
        cases y with
        | fixnum n =>
          apply Fixnum.ext
          show Int.bmod (-Int.bmod (n.val - m.val) (2 ^ 63)) (2 ^ 63) =
            Int.bmod (m.val - n.val) (2 ^ 63)
          rw [Int.bmod_neg_bmod, neg_sub]
        | bignum bn => simp [ExactInt.numType] at hfix
      | bignum bn => simp [ExactInt.numType] at hfix
    rw [hneg]
    exact sign_compareInteger_iff hx hy hwords
  · obtain ⟨hsign, habs, -⟩ := compareInteger_of_bignum hy hx (by omega) hfix
    have hfits : DifferenceFits x.toInt y.toInt := by
      intro hxr hyr
      refine absurd ⟨?_, ?_⟩ hfix
      · cases y with
        | fixnum n => rfl
        | bignum bn => exact absurd hyr hy
      · cases x with
        | fixnum n => rfl
        | bignum bn => exact absurd hxr hx
    refine iff_of_true ?_ hfits
    rw [sexpFxNeg_val _ (by omega), Int.sign_neg, hsign, ← Int.sign_neg, neg_sub]

/-! ## The table -/

section Table

variable (flo : FlonumOps F) (depth : ℕ)

theorem compareTable_integer (hx : h.integer? a = some x) (hy : h.integer? b = some y) :
    (arith flo (depth + 1)).compare a b h = some (.fixnum (compareInteger x y), h) := by
  have hordered : ∀ {v w : Val} {x y : ExactInt}, h.integer? v = some x → h.integer? w = some y →
      ¬ (x.numType = .big ∧ y.numType = .fix) →
      compareOrdered flo (arith flo depth) v w h = some (.fixnum (compareInteger x y), h) := by
    intro v w x y hx hy horder
    refine (bind_run (numberType_integer hx)).trans ((bind_run (numberType_integer hy)).trans ?_)
    cases x <;> cases y
    · exact (bind_run (readInt_run hx)).trans (bind_run (readInt_run hy))
    · exact (bind_run (readInt_run hx)).trans (bind_run (readInt_run hy))
    · exact absurd ⟨rfl, rfl⟩ horder
    · exact (bind_run (readInt_run hx)).trans (bind_run (readInt_run hy))
  refine (bind_run (numberType_integer hx)).trans ((bind_run (numberType_integer hy)).trans ?_)
  cases x <;> cases y
  · exact hordered hx hy (by simp [ExactInt.numType])
  · exact hordered hx hy (by simp [ExactInt.numType])
  · -- the bignum comes first: compare the other way round and negate
    exact bind_run (hordered hy hx (by simp [ExactInt.numType]))
  · exact hordered hx hy (by simp [ExactInt.numType])

variable {anum aden bnum bden : Val} {xa ya xb yb : ExactInt}

theorem sexpRatioCompare_run (ha : IsRatio h a anum aden xa ya)
    (hb : IsRatio h b bnum bden xb yb) :
    Returns (sexpRatioCompare (arith flo (depth + 1)) a b) h fun r h' =>
      Extends h h' ∧ r = .fixnum (compareInteger (mulInteger xa yb) (mulInteger xb ya)) := by
  refine Returns.of_bind_run (readRatio_run ha.lookup) ?_
  refine Returns.of_bind_run (readRatio_run hb.lookup) ?_
  refine (mul_run flo depth ha.num.1 hb.den.1).bind ?_
  rintro left h₁ ⟨hext₁, hleft, -⟩
  refine (mul_run flo depth (hb.num.of_extends hext₁).1 (ha.den.of_extends hext₁).1).bind ?_
  rintro right h₂ ⟨hext₂, hright, -⟩
  exact Returns.of_run (compareTable_integer flo depth (hleft.of_extends hext₂).1 hright.1)
    ⟨hext₁.trans hext₂, rfl⟩

theorem ExactInt.FitsInt.words_le (hx : x.FitsInt) : x.words ≤ 2 ^ 28 := by
  cases x with
  | fixnum n => exact Nat.one_le_two_pow
  | bignum bn =>
    have hlength : bn.data.length ≤ 2 ^ 28 := hx
    have hhi := sexpBignumHi_le bn
    show sexpBignumHi bn ≤ _
    omega

theorem Heap.FitsInt.words_le (hfits : h.FitsInt) (hx : h.integer? v = some x) :
    x.words ≤ 2 ^ 28 := by
  apply ExactInt.FitsInt.words_le
  cases x with
  | fixnum n => trivial
  | bignum bn =>
    rw [integer?_eq_some_bignum_iff] at hx
    obtain ⟨addr, rfl⟩ := Heap.ptr_of_lookup hx
    exact hfits bn (List.mem_of_getElem? hx)

/-- `c` is what one of the two orders of comparison makes of `m` and `n`, two
products of numbers in the heap whose lengths an `int` still holds. -/
def ComparedAs (h : Heap F) (c : Fixnum) (m n : ℤ) : Prop :=
  ∃ u v : ExactInt, u.Canonical ∧ v.Canonical ∧ u.toInt = m ∧ v.toInt = n ∧
    (h.FitsInt → u.words + v.words ≤ 2 ^ 30) ∧
    (c = compareInteger u v ∨ c = sexpFxNeg (compareInteger v u))

theorem ComparedAs.sign_iff {c : Fixnum} {n : ℤ} (hc : ComparedAs h c m n) (hfits : h.FitsInt) :
    c.val.sign = (m - n).sign ↔ DifferenceFits m n := by
  obtain ⟨u, v, hu, hv, rfl, rfl, hwords, hc⟩ := hc
  have hboxed : u.words + v.words ≤ 2 ^ 62 := (hwords hfits).trans (by norm_num)
  rcases hc with rfl | rfl
  · exact sign_compareInteger_iff hu hv hboxed
  · exact sign_neg_compareInteger_iff hu hv hboxed

theorem sexpCompare_run (ha : RepQ h a p) (hb : RepQ h b q) :
    Returns ((arith flo (depth + 2)).compare a b) h fun r h' =>
      Extends h h' ∧ ∃ c, r = .fixnum c ∧ ComparedAs h c (p.num * q.den) (q.num * p.den) := by
  have hproducts : ∀ {v₁ w₁ v₂ w₂ : Val} {x₁ y₁ x₂ y₂ : ExactInt}, h.integer? v₁ = some x₁ →
      h.integer? w₁ = some y₁ → h.integer? v₂ = some x₂ → h.integer? w₂ = some y₂ →
      h.FitsInt → (mulInteger x₁ y₁).words + (mulInteger x₂ y₂).words ≤ 2 ^ 30 := by
    intro v₁ w₁ v₂ w₂ x₁ y₁ x₂ y₂ h1 h2 h3 h4 hfits
    have hleft := words_mulInteger_le x₁ y₁
    have hright := words_mulInteger_le x₂ y₂
    have hw1 := hfits.words_le h1
    have hw2 := hfits.words_le h2
    have hw3 := hfits.words_le h3
    have hw4 := hfits.words_le h4
    omega
  have hone : h.integer? .one = some (fixnum sexpOne) := rfl
  rcases ha.view with ⟨x, hx, hcanonical, hpnum, hpden⟩ | ⟨anum, aden, xa, ya, hra, hpnum, hpden⟩
  · rcases hb.view with ⟨y, hy, hcanonical', hqnum, hqden⟩ | ⟨bnum, bden, xb, yb, hrb, hqnum, hqden⟩
    · refine Returns.of_run (compareTable_integer flo (depth + 1) hx.1 hy.1) ⟨Extends.refl h, _, rfl,
        x, y, hcanonical, hcanonical', ?_, ?_, ?_, .inl rfl⟩
      · rw [hpnum, hqden, Nat.cast_one, mul_one]
      · rw [hqnum, hpden, Nat.cast_one, mul_one]
      · intro hfits
        have hxw := hfits.words_le hx.1
        have hyw := hfits.words_le hy.1
        omega
    · have hext : Extends h (h ++ [.ratio a .one]) := Extends.append h _
      -- the integer becomes a ratio over one
      have hwrapped : Returns (do
          sexpRatioCompare (arith flo (depth + 1)) (← sexpMakeRatio a .one) b) h fun r h' =>
          Extends h h' ∧ ∃ c, r = .fixnum c ∧ ComparedAs h c (p.num * q.den) (q.num * p.den) := by
        refine Returns.of_bind_run
          (show sexpMakeRatio a .one h = some (.ptr h.length, _) from rfl) ?_
        refine (sexpRatioCompare_run flo depth (wrap_isRatio hx) (hrb.of_extends hext)).mono ?_
        rintro r h' ⟨hext', hr⟩
        refine ⟨hext.trans hext', _, hr, _, _, (mulInteger_spec _ _).2, (mulInteger_spec _ _).2, ?_,
          ?_, hproducts hx.1 hrb.den.1 hrb.num.1 hone, .inl rfl⟩
        · rw [(mulInteger_spec _ _).1, hpnum, hqden]
        · rw [(mulInteger_spec _ _).1, hqnum, hpden, toInt_fixnum, sexpOne_val, Nat.cast_one]
      refine Returns.of_bind_run (numberType_integer hx.1) ?_
      refine Returns.of_bind_run (numberType_ratio hrb.lookup) ?_
      cases x
      · refine Returns.of_bind_run (numberType_integer hx.1) ?_
        exact Returns.of_bind_run (numberType_ratio hrb.lookup) hwrapped
      · refine Returns.of_bind_run (numberType_integer hx.1) ?_
        exact Returns.of_bind_run (numberType_ratio hrb.lookup) hwrapped
  · refine Returns.of_bind_run (numberType_ratio hra.lookup) ?_
    rcases hb.view with ⟨y, hy, hcanonical', hqnum, hqden⟩ | ⟨bnum, bden, xb, yb, hrb, hqnum, hqden⟩
    · -- the ratio comes first: compare the other way round and negate
      refine Returns.of_bind_run (numberType_integer hy.1) ?_
      have hext : Extends h (h ++ [.ratio b .one]) := Extends.append h _
      have hordered : Returns (compareOrdered flo (arith flo (depth + 1)) b a) h fun r h' =>
          Extends h h' ∧
            r = .fixnum (compareInteger (mulInteger y ya) (mulInteger xa (fixnum sexpOne))) := by
        refine Returns.of_bind_run (numberType_integer hy.1) ?_
        refine Returns.of_bind_run (numberType_ratio hra.lookup) ?_
        have hwrapped := (sexpRatioCompare_run flo depth (wrap_isRatio hy)
          (hra.of_extends hext)).mono fun r h' hresult => And.imp_left hext.trans hresult
        have hmake : sexpMakeRatio b .one h = some (.ptr h.length, h ++ [.ratio b .one]) := rfl
        cases y
        · exact Returns.of_bind_run hmake hwrapped
        · exact Returns.of_bind_run hmake hwrapped
      cases y
      all_goals
        change Returns (compareOrdered flo (arith flo (depth + 1)) b a >>= _) h _
        refine hordered.bind ?_
        rintro r h' ⟨hext', rfl⟩
        refine Returns.of_run rfl ⟨hext', _, rfl, mulInteger xa (fixnum sexpOne), mulInteger _ ya,
          (mulInteger_spec _ _).2, (mulInteger_spec _ _).2, ?_, ?_,
          hproducts hra.num.1 hone hy.1 hra.den.1, .inr rfl⟩
        · rw [(mulInteger_spec _ _).1, hpnum, hqden, toInt_fixnum, sexpOne_val, Nat.cast_one]
        · rw [(mulInteger_spec _ _).1, hqnum, hpden]
    · refine Returns.of_bind_run (numberType_ratio hrb.lookup) ?_
      refine Returns.of_bind_run (numberType_ratio hra.lookup) ?_
      refine Returns.of_bind_run (numberType_ratio hrb.lookup) ?_
      refine (sexpRatioCompare_run flo depth hra hrb).mono ?_
      rintro r h' ⟨hext', hr⟩
      refine ⟨hext', _, hr, _, _, (mulInteger_spec _ _).2, (mulInteger_spec _ _).2, ?_, ?_,
        hproducts hra.num.1 hrb.den.1 hrb.num.1 hra.den.1, .inl rfl⟩
      · rw [(mulInteger_spec _ _).1, hpnum, hqden]
      · rw [(mulInteger_spec _ _).1, hqnum, hpden]

end Table

/-! ## The order -/

/-- The operands whose comparison keeps the sign: cross products that are both
fixnums have a fixnum difference. -/
def CompareSafe (p q : ℚ) : Prop := DifferenceFits (p.num * q.den) (q.num * p.den)

instance (p q : ℚ) : Decidable (CompareSafe p q) :=
  inferInstanceAs (Decidable (DifferenceFits _ _))

/-- `sexp_compare` has the sign of `p - q`, and the opcodes order `a` and `b` as
`p` and `q` are ordered. -/
structure ComparesAs (flo : FlonumOps F) (depth : ℕ) (h : Heap F) (a b : Val) (p q : ℚ) :
    Prop where
  compare : Returns ((arith flo depth).compare a b) h fun r _ =>
    ∃ c, r = .fixnum c ∧ SignType.sign c.val = SignType.sign (p - q)
  lt : Returns (sexpOpLt (arith flo depth) a b) h fun r _ => r = .ok (decide (p < q))
  le : Returns (sexpOpLe (arith flo depth) a b) h fun r _ => r = .ok (decide (p ≤ q))
  eqn : Returns (sexpOpEqn (arith flo depth) flo a b) h fun r _ => r = .ok (decide (p = q))

private theorem sign_eq_iff (c : ℤ) (p q : ℚ) :
    SignType.sign c = SignType.sign (p - q) ↔ c.sign = (p.num * q.den - q.num * p.den).sign := by
  have hlt := Rat.lt_iff p q
  have hgt := Rat.lt_iff q p
  rcases lt_trichotomy p q with hpq | rfl | hpq
  · rw [sign_neg (sub_neg.mpr hpq), sign_eq_neg_one_iff,
      Int.sign_eq_neg_one_of_neg (a := _ - _) (by have := hlt.mp hpq; omega),
      Int.sign_eq_neg_one_iff_neg]
  · rw [sub_self, sub_self, sign_zero, sign_eq_zero_iff, Int.sign_zero, Int.sign_eq_zero_iff_zero]
  · rw [sign_pos (sub_pos.mpr hpq), sign_eq_one_iff,
      Int.sign_eq_one_of_pos (a := _ - _) (by have := hgt.mp hpq; omega),
      Int.sign_eq_one_iff_pos]

private theorem tests_of_sign {c : Fixnum} (hsign : SignType.sign c.val = SignType.sign (p - q)) :
    decide (c.val < 0) = decide (p < q) ∧ decide (c.val ≤ 0) = decide (p ≤ q) ∧
      decide (c = sexpZero) = decide (p = q) := by
  rcases lt_trichotomy p q with hpq | rfl | hpq
  · rw [sign_neg (sub_neg.mpr hpq), sign_eq_neg_one_iff] at hsign
    have hne : c ≠ sexpZero := fun hzero => by
      rw [eq_sexpZero_iff] at hzero
      omega
    simp [hsign, hsign.le, hpq, hpq.le, hpq.ne, hne]
  · rw [sub_self, sign_zero, sign_eq_zero_iff] at hsign
    have hzero := (eq_sexpZero_iff c).mpr hsign
    simp [hzero]
  · rw [sign_pos (sub_pos.mpr hpq), sign_eq_one_iff] at hsign
    have hne : c ≠ sexpZero := fun hzero => by
      rw [eq_sexpZero_iff] at hzero
      omega
    simp [not_lt.mpr hsign.le, not_le.mpr hsign, not_lt.mpr hpq.le, not_le.mpr hpq, hpq.ne', hne]

section Opcodes

variable (flo : FlonumOps F) (depth : ℕ)

private theorem numberType_ne_cpx (hv : RepQ h v p) :
    ∃ type, numberType v h = some (type, h) ∧ type ≠ .cpx := by
  rcases hv.view with ⟨x, hx, -⟩ | ⟨num, den, x, y, hratio, -⟩
  · refine ⟨_, numberType_integer hx.1, ?_⟩
    cases x <;> simp [ExactInt.numType]
  · exact ⟨_, numberType_ratio hratio.lookup, by simp⟩

private theorem opcodes_of_fixnums {m n : Fixnum} (ha : RepQ h (.fixnum m) p)
    (hb : RepQ h (.fixnum n) q) :
    (p < q ↔ m.val < n.val) ∧ (p ≤ q ↔ m.val ≤ n.val) ∧ (p = q ↔ m = n) := by
  have hvalue : ∀ {k : Fixnum} {r : ℚ}, RepQ h (.fixnum k) r → r = (k.val : ℚ) := by
    rintro k r (⟨i, ⟨x, hx, -, rfl⟩, rfl⟩ | ⟨num, den, m, d, hlookup, -⟩)
    · rw [← Option.some.inj hx]
      rfl
    · simp [Heap.lookup] at hlookup
  rw [hvalue ha, hvalue hb, Fixnum.ext_iff]
  exact ⟨Int.cast_lt, Int.cast_le, Int.cast_inj⟩

private theorem opcodes_of_compare (ha : RepQ h a p) (hb : RepQ h b q)
    (hcompare : Returns ((arith flo depth).compare a b) h fun r _ =>
      ∃ c, r = .fixnum c ∧ SignType.sign c.val = SignType.sign (p - q)) :
    ComparesAs flo depth h a b p q := by
  have htest : ∀ (test : Fixnum → Bool) {expected : Bool},
      (∀ c : Fixnum, SignType.sign c.val = SignType.sign (p - q) → test c = expected) →
      Returns (do compareResult test (← (arith flo depth).compare a b)) h
        fun r _ => r = .ok expected := by
    intro test expected htest
    refine hcompare.bind ?_
    rintro r h' ⟨c, rfl, hsign⟩
    exact Returns.pure (congrArg Except.ok (htest c hsign))
  have hlt := htest (fun r => decide (r.val < 0)) fun c hsign => (tests_of_sign hsign).1
  have hle := htest (fun r => decide (r.val ≤ 0)) fun c hsign => (tests_of_sign hsign).2.1
  have heqn : Returns (eqnReals (arith flo depth) a b) h fun r _ => r = .ok (decide (p = q)) :=
    htest _ fun c hsign => (tests_of_sign hsign).2.2
  obtain ⟨ta, hta, hca⟩ := numberType_ne_cpx ha
  obtain ⟨tb, htb, hcb⟩ := numberType_ne_cpx hb
  have hgeneral : Returns (eqnFirst (arith flo depth) flo a b) h
      fun r _ => r = .ok (decide (p = q)) := by
    refine Returns.of_bind_run hta ?_
    rw [if_neg hca]
    refine Returns.of_bind_run htb ?_
    rw [if_neg hcb]
    exact heqn
  refine ⟨hcompare, ?_, ?_, ?_⟩
  · cases a with
    | fixnum m =>
      cases b with
      | fixnum n =>
        exact Returns.pure (congrArg Except.ok (decide_eq_decide.mpr
          (opcodes_of_fixnums ha hb).1.symm))
      | _ => exact hlt
    | _ => exact hlt
  · cases a with
    | fixnum m =>
      cases b with
      | fixnum n =>
        exact Returns.pure (congrArg Except.ok (decide_eq_decide.mpr
          (opcodes_of_fixnums ha hb).2.1.symm))
      | _ => exact hle
    | _ => exact hle
  · cases a with
    | fixnum m =>
      cases b with
      | fixnum n =>
        exact Returns.pure (congrArg Except.ok (decide_eq_decide.mpr
          (opcodes_of_fixnums ha hb).2.2.symm))
      | _ => exact hgeneral
    | _ => exact hgeneral

/-- Comparison follows the values exactly on the safe operands, in a heap whose bignums are
within the `int` counts of `sexp_bignum_compare_abs`. -/
theorem sexpCompare_iff (ha : RepQ h a p) (hb : RepQ h b q) (hfits : h.FitsInt) :
    ComparesAs flo (depth + 3) h a b p q ↔ CompareSafe p q := by
  obtain ⟨r, h', hrun, -, c, hr, hcompared⟩ := sexpCompare_run flo (depth + 1) ha hb
  constructor
  · intro hright
    obtain ⟨r₁, h₁, hrun₁, c₁, hr₁, hsign⟩ := hright.compare
    obtain ⟨rfl, -⟩ := Prod.mk.inj (Option.some.inj (hrun.symm.trans hrun₁))
    obtain rfl := Val.fixnum.inj (hr.symm.trans hr₁)
    exact (hcompared.sign_iff hfits).mp ((sign_eq_iff c.val p q).mp hsign)
  · intro hsafe
    refine opcodes_of_compare flo (depth + 3) ha hb ⟨r, h', hrun, c, hr, ?_⟩
    exact (sign_eq_iff c.val p q).mpr ((hcompared.sign_iff hfits).mpr hsafe)

end Opcodes

/-- The ratio `1/2` and the integer `3`. -/
theorem sexpCompare_half :
    ComparesAs oneFlonum 3 [.ratio .one (.fixnum (sexpMakeFixnum 2))] (.ptr 0)
      (.fixnum (sexpMakeFixnum 3)) (1 / 2) 3 := by
  refine (sexpCompare_iff oneFlonum 0 ?_ ?_ ?_).mpr ?_
  · exact .inr ⟨.one, .fixnum (sexpMakeFixnum 2), 1, 2, rfl, ⟨_, rfl, trivial, by decide⟩,
      ⟨_, rfl, trivial, by decide⟩, by decide, by decide, by norm_num⟩
  · exact .inl ⟨3, ⟨_, rfl, trivial, by decide⟩, by norm_num⟩
  · intro bn hbn
    simp at hbn
  · decide +kernel

/-- The ratio `(2^61 - 1) / 2` is found to be less than its negation: the difference
of the cross products is `2^63 - 4` and boxes to a negative number. -/
theorem sexpCompare_wraps :
    ∃ (h : Heap Unit) (p : ℚ), RepQ h (.ptr 0) p ∧ RepQ h (.ptr 1) (-p) ∧ -p < p ∧
      Returns ((arith oneFlonum 3).compare (.ptr 0) (.ptr 1)) h
        (fun r _ => r = .fixnum (sexpMakeFixnum (-4))) ∧
      Returns (sexpOpLt (arith oneFlonum 3) (.ptr 0) (.ptr 1)) h (fun r _ => r = .ok true) := by
  refine ⟨[.ratio (.fixnum (sexpMakeFixnum (2 ^ 61 - 1))) (.fixnum (sexpMakeFixnum 2)),
    .ratio (.fixnum (sexpMakeFixnum (1 - 2 ^ 61))) (.fixnum (sexpMakeFixnum 2))],
    (2 ^ 61 - 1) / 2, ?_, ?_, by norm_num, ?_, ?_⟩
  · exact .inr ⟨_, _, 2 ^ 61 - 1, 2, rfl, ⟨_, rfl, trivial, by decide⟩,
      ⟨_, rfl, trivial, by decide⟩, by decide, by decide, by norm_num⟩
  · exact .inr ⟨_, _, 1 - 2 ^ 61, 2, rfl, ⟨_, rfl, trivial, by decide⟩,
      ⟨_, rfl, trivial, by decide⟩, by decide, by decide, by norm_num⟩
  · exact ⟨_, _, rfl, congrArg Val.fixnum (Fixnum.ext (by decide))⟩
  · exact ⟨_, _, rfl, rfl⟩

end ChibiScheme
