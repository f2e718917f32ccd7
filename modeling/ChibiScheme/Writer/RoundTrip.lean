import ChibiScheme.Numeric.Compare
import ChibiScheme.Writer.Numeral

/-!
# Exact integers survive writing and reading

Both writers produce the signed numeral of an integer, and the reader takes a signed numeral back to
the integer.  The writer of bignums needs a string for it whose length it estimates in an `int`.
-/

namespace ChibiScheme

open Stateful ExactInt List Option

variable {base : ℕ}

/-! ## Signed numerals -/

/-- The numeral of an integer, with a minus in front of a negative one. -/
def signedNumeral (digit : ℕ → UInt8) (base : ℕ) (n : ℤ) : List UInt8 :=
  signText (decide (n < 0)) ++ numeralText digit base n.natAbs

theorem decimalText_eq (n : ℤ) : decimalText n = signedNumeral hexDigit 10 n := by
  simp [decimalText, signedNumeral, signText]

theorem signedNumeral_ne_nil (digit : ℕ → UInt8) (base : ℕ) (n : ℤ) :
    signedNumeral digit base n ≠ [] := by
  simp [signedNumeral, numeralText_ne_nil]

section

variable {F : Type} (flo : FlonumOps F) (tower : Arith F) (tails : NumberTails F)

/-- In front of any delimiter the text is read as the integer, in canonical representation. -/
def ReadsBack (base : ℕ) (text : Option (List UInt8)) (n : ℤ) : Prop :=
  ∃ chars, text = some chars ∧ ∀ after, atDelimiter after = true → ∀ (fuel : ℕ) (exactp : Bool)
    (h : Heap F), Returns (sexpReadNumber flo tower tails (fuel + 1) base exactp)
      ⟨chars ++ after, h⟩ (ReadsInt h after n)

variable {flo tower tails}

theorem signedNumeral_readsBack {digit : ℕ → UInt8} (hnames : DigitNames digit) (hbase : 2 ≤ base)
    (hsmall : base ≤ 16) (n : ℤ) :
    ReadsBack flo tower tails base (some (signedNumeral digit base n)) n := by
  refine ⟨_, rfl, fun after hend fuel exactp h => ?_⟩
  have hread : Returns (sexpReadNumber flo tower tails (fuel + 1) base exactp) _ _ :=
    sexpReadNumber_integer (show (2 : ℤ) ≤ base by omega) (by omega)
    (isNumeral_numeralText hnames hbase hsmall n.natAbs) (numeralText_ne_nil n.natAbs) hend
    (decide (n < 0)) exactp fuel h
  have hvalue : (signOf (decide (n < 0))).toInt * digitsValue base (numeralText digit base n.natAbs)
      = n := by
    rw [digitsValue_numeralText hnames hbase hsmall]
    by_cases hneg : n < 0
    · simp only [hneg, decide_true, signOf, if_true, Sign.toInt_neg]
      omega
    · simp only [hneg, decide_false, signOf, Bool.false_eq_true, if_false, Sign.toInt_pos]
      omega
  rw [hvalue] at hread
  rwa [signedNumeral, append_assoc]

end

/-! ## The writer of bignums -/

theorem log2i_eq (hbase : 2 ≤ base) (hsmall : base ≤ 16) : log2i base = Nat.log 2 base := by
  interval_cases base <;> decide

/-- The string that the writer makes holds the numeral of the bignum: the length of the string is
estimated from the number of words, and the estimate is an `int`. -/
def EstimateHolds (b : Bignum) (base : ℕ) : Prop :=
  ((signedNumeral hexDigit base b.toInt).length : ℤ) ≤
    Int.bmod ((64 * b.data.length + Nat.log 2 base - 1) / Nat.log 2 base + 1 : ℕ) (2 ^ 32)

instance (b : Bignum) (base : ℕ) : Decidable (EstimateHolds b base) :=
  inferInstanceAs (Decidable (_ ≤ _))

theorem estimateHolds_iff (hbase : 2 ≤ base) (hsmall : base ≤ 16) (b : Bignum) :
    EstimateHolds b base ↔
      ((signedNumeral hexDigit base b.toInt).length : ℤ) ≤ strLen b.data.length base := by
  have hlength : digitBufferLength b.data.length base =
      (64 * b.data.length + Nat.log 2 base - 1) / Nat.log 2 base + 1 := by
    rw [digitBufferLength, log2i_eq hbase hsmall, mul_comm]
  unfold EstimateHolds strLen
  rewrite [hlength]
  exact Iff.rfl

theorem bignum_neg_iff (b : Bignum) : b.toInt < 0 ↔ b.sign = .neg ∧ b.magnitude ≠ 0 := by
  rw [Bignum.toInt]
  cases b.sign with
  | pos => simp
  | neg =>
    simp only [Sign.toInt_neg, true_and]
    omega

theorem sexpWriteBignum_eq (hbase : 2 ≤ base) (hsmall : base ≤ 16) (b : Bignum) :
    sexpWriteBignum b base =
      if EstimateHolds b base then some (signedNumeral hexDigit base b.toInt) else none := by
  have hiff := estimateHolds_iff hbase hsmall b
  have habs := b.natAbs_toInt
  have hneg := bignum_neg_iff b
  have hcopy : ((sexpCopyBignum b 0).withSign .pos).magnitude = b.magnitude := rfl
  have hpositive : 0 < (signedNumeral hexDigit base b.toInt).length :=
    length_pos_iff.mpr (signedNumeral_ne_nil _ _ _)
  unfold sexpWriteBignum
  by_cases hlength : strLen b.data.length base < 0
  · have hnot : ¬ EstimateHolds b base := by
      rw [hiff]
      omega
    simp only [if_pos hlength, if_neg hnot]
  · simp only [if_neg hlength]
    rw [writeDigits_spec hbase hsmall _ _ (by rw [hcopy]; omega), hcopy, append_nil]
    generalize hroom : (strLen b.data.length base).toNat = room
    have hroom' : strLen b.data.length base = room := by omega
    rw [hroom'] at hiff
    by_cases hzero : b.magnitude = 0
    · have hnotneg : ¬ b.toInt < 0 := fun h => (hneg.mp h).2 hzero
      have htext : signedNumeral hexDigit base b.toInt = [byte '0'] := by
        simp only [signedNumeral, hnotneg, decide_false, signText, Bool.false_eq_true, if_false,
          habs, hzero, numeralText_eq, if_true, nil_append]
        rfl
      rw [htext] at hiff ⊢
      rw [hzero, Nat.digits_zero, length_nil, if_pos (Nat.zero_le _), digitText_zero,
        Nat.sub_zero, bind_eq_bind, bind_some, if_pos rfl]
      by_cases hempty : room = 0
      · rw [if_pos hempty, if_neg (by rw [hiff]; simp [hempty])]
      · rw [if_neg hempty, if_pos (hiff.mpr (by simp; omega))]
    · have hdigits : 0 < (Nat.digits base b.magnitude).length := by
        rw [← length_digitText hexDigit]
        exact length_pos_iff.mpr (digitText_ne_nil hzero)
      have htext : signedNumeral hexDigit base b.toInt =
          signText (decide (b.toInt < 0)) ++ digitText hexDigit base b.magnitude := by
        rw [signedNumeral, habs, numeralText_eq, if_neg hzero]
      rw [htext] at hiff ⊢
      by_cases hsign : b.sign = .neg
      · have hless : b.toInt < 0 := hneg.mpr ⟨hsign, hzero⟩
        simp only [hless, decide_true, signText, if_true, singleton_append,
          length_cons, length_digitText] at hiff ⊢
        by_cases hfits : (Nat.digits base b.magnitude).length ≤ room
        · rw [if_pos hfits, bind_eq_bind, bind_some, if_neg (by omega),
            if_pos hsign]
          by_cases hminus : room - (Nat.digits base b.magnitude).length = 0
          · rw [if_pos hminus, if_neg (by rw [hiff]; omega)]
          · rw [if_neg hminus, if_pos (hiff.mpr (by omega))]
        · rw [if_neg hfits, if_neg (by rw [hiff]; omega)]
          rfl
      · have hless : ¬ b.toInt < 0 := fun h => hsign (hneg.mp h).1
        simp only [hless, decide_false, signText, Bool.false_eq_true, if_false, nil_append,
          length_digitText] at hiff ⊢
        by_cases hfits : (Nat.digits base b.magnitude).length ≤ room
        · rw [if_pos hfits, bind_eq_bind, bind_some, if_neg (by omega),
            if_neg hsign, if_pos (hiff.mpr (by omega))]
        · rw [if_neg hfits, if_neg (by rw [hiff]; omega)]
          rfl

theorem estimateHolds_of_small (hbase : 2 ≤ base) (hsmall : base ≤ 16) (b : Bignum)
    (hint : (64 * b.data.length + Nat.log 2 base - 1) / Nat.log 2 base + 1 < 2 ^ 31) :
    EstimateHolds b base := by
  have hlog : 0 < Nat.log 2 base := Nat.log_pos (by omega) hbase
  have hpow : 2 ^ Nat.log 2 base ≤ base := Nat.pow_log_le_self 2 (by omega)
  generalize hk : (64 * b.data.length + Nat.log 2 base - 1) / Nat.log 2 base = k at hint
  have hceil : 64 * b.data.length ≤ Nat.log 2 base * k := by
    have hdivision := Nat.div_add_mod (64 * b.data.length + Nat.log 2 base - 1) (Nat.log 2 base)
    have hrest := Nat.mod_lt (64 * b.data.length + Nat.log 2 base - 1) hlog
    rw [hk] at hdivision
    omega
  have hmagnitude : b.magnitude < base ^ k := by
    calc b.magnitude < Limbs.base ^ b.data.length := Limbs.value_lt b.data
      _ = 2 ^ (64 * b.data.length) := by rw [Limbs.base, ← pow_mul]
      _ ≤ 2 ^ (Nat.log 2 base * k) := Nat.pow_le_pow_right (by omega) hceil
      _ = (2 ^ Nat.log 2 base) ^ k := pow_mul _ _ _
      _ ≤ base ^ k := Nat.pow_le_pow_left hpow k
  have hdigits : (Nat.digits base b.magnitude).length ≤ k :=
    (Nat.digits_length_le_iff (by omega) _).mpr hmagnitude
  have hlength : (signedNumeral hexDigit base b.toInt).length ≤ k + 1 := by
    rw [signedNumeral, length_append, b.natAbs_toInt, numeralText_eq]
    by_cases hzero : b.magnitude = 0
    · have hnotneg : ¬ b.toInt < 0 := fun h => ((bignum_neg_iff b).mp h).2 hzero
      simp [hzero, hnotneg, signText]
    · rw [if_neg hzero, length_digitText]
      have hsign : (signText (decide (b.toInt < 0))).length ≤ 1 := by
        unfold signText
        split <;> simp
      omega
  rw [EstimateHolds, hk, Int.bmod_eq_of_le (by omega) (by omega)]
  omega

/-! ## The loop of `number->string` -/

theorem vmLess_zero_left {n : ExactInt} (hcanonical : n.Canonical) :
    vmLess (.fixnum sexpZero) n = decide (0 < n.toInt) := by
  cases n with
  | fixnum m => rfl
  | bignum b =>
    obtain ⟨-, hsign⟩ := compareFixBig_spec sexpZero hcanonical
    rw [sexpZero_val, zero_sub, Int.sign_neg] at hsign
    show decide ((compareFixBig sexpZero b).val < 0) = _
    rw [decide_eq_decide, ← Int.sign_eq_neg_one_iff_neg, hsign, ← Int.sign_eq_one_iff_pos,
      toInt_bignum]
    omega

theorem vmLess_zero_right {n : ExactInt} (hcanonical : n.Canonical) :
    vmLess n (.fixnum sexpZero) = decide (n.toInt < 0) := by
  cases n with
  | fixnum m => rfl
  | bignum b =>
    obtain ⟨habs, hsign⟩ := compareFixBig_spec sexpZero hcanonical
    have hval := sexpFxNeg_val (compareFixBig sexpZero b) (by omega)
    rw [sexpZero_val, zero_sub, Int.sign_neg] at hsign
    show decide ((sexpFxNeg (compareFixBig sexpZero b)).val < 0) = _
    rw [decide_eq_decide, hval, ← Int.sign_eq_neg_one_iff_neg, Int.sign_neg, hsign,
      ← Int.sign_eq_neg_one_iff_neg, toInt_bignum]
    omega

/-- `abs` keeps an integer canonical. -/
theorem schemeAbs_spec {n : ExactInt} (hcanonical : n.Canonical) :
    (schemeAbs n).Canonical ∧ (schemeAbs n).toInt = n.toInt.natAbs := by
  unfold schemeAbs
  rw [vmLess_zero_right hcanonical]
  by_cases hneg : n.toInt < 0
  · simp only [hneg, decide_true, if_true]
    have hvalue : (vmSub (.fixnum sexpZero) n).Canonical ∧
        (vmSub (.fixnum sexpZero) n).toInt = 0 - n.toInt := by
      cases n with
      | fixnum m =>
        unfold vmSub
        simp only [sexpZero_val]
        split
        · refine ⟨subInteger_canonical _ _, ?_⟩
          have hexact : SubExact (.bignum (sexpFixnumToBignum sexpZero)) (.fixnum m) := trivial
          rw [(subInteger_toInt_iff _ _).mpr hexact, toInt_bignum, sexpFixnumToBignum_toInt,
            sexpZero_val]
        · rename_i hrange
          exact ⟨trivial, sexpMakeFixnum_val (by unfold InFixnumRange; omega)⟩
      | bignum b =>
        have hsub : vmSub (.fixnum sexpZero) (.bignum b) =
            subInteger (.fixnum sexpZero) (.bignum b) := by
          unfold vmSub
          rfl
        have hexact : SubExact (.fixnum sexpZero) (.bignum b) := trivial
        rw [hsub]
        refine ⟨subInteger_canonical _ _, ?_⟩
        rw [(subInteger_toInt_iff _ _).mpr hexact, toInt_fixnum, sexpZero_val]
    refine ⟨hvalue.1, hvalue.2.trans ?_⟩
    omega
  · simp only [hneg, decide_false, Bool.false_eq_true, if_false]
    exact ⟨hcanonical, by omega⟩

theorem vmQuotient_spec {d : Fixnum} (hd : 2 ≤ d.val) (n : ExactInt) :
    ∃ q, vmQuotient n d = some q ∧ q.Canonical ∧ q.toInt = n.toInt.tdiv d.val := by
  cases n with
  | fixnum m => exact ⟨_, rfl, trivial, sexpFxDiv_val (by omega)⟩
  | bignum b =>
    obtain ⟨q, hresult, hvalue, hcanonical⟩ := quotientInteger_spec (a := .bignum b)
      (b := .fixnum d) (by simp only [toInt_fixnum]; omega) trivial (by simp [MinByItsMagnitude])
    refine ⟨q, by simp [vmQuotient, hresult, IntResult.integer?], ?_, hvalue⟩
    rcases hcanonical with ⟨hone, -⟩ | hcanonical
    · have hval := congrArg ExactInt.toInt hone
      simp only [toInt_fixnum, sexpOne_val] at hval
      omega
    · exact hcanonical

theorem vmRemainder_spec {d : Fixnum} (hd : 2 ≤ d.val) (n : ExactInt) :
    ∃ r, vmRemainder n d = some r ∧ r.toInt = n.toInt.tmod d.val := by
  cases n with
  | fixnum m => exact ⟨_, rfl, sexpFxRem_val m d⟩
  | bignum b =>
    obtain ⟨r, hresult, hvalue, -⟩ := remainderInteger_spec (a := .bignum b) (b := .fixnum d)
      (by simp only [toInt_fixnum]; omega) trivial (by simp [MinByItsMagnitude])
    exact ⟨r, by simp [vmRemainder, hresult, IntResult.integer?], hvalue⟩

/-- The loop of `number->string` collects the digits. -/
theorem numberToStringLoop_spec (hbase : 2 ≤ base) {d : Fixnum} (hd : d.val = base) (fuel : ℕ)
    {n : ExactInt} (hcanonical : n.Canonical) {m : ℕ} (hvalue : n.toInt = m) (hfuel : m < fuel)
    (res : List UInt8) :
    numberToStringLoop d fuel n res = some (digitText digitChar base m ++ res) := by
  induction fuel generalizing n m res with
  | zero => omega
  | succ fuel ih =>
    unfold numberToStringLoop
    rw [vmLess_zero_left hcanonical, hvalue]
    by_cases hzero : m = 0
    · simp [hzero]
    have hpos : 0 < m := Nat.pos_of_ne_zero hzero
    obtain ⟨q, hquotient, hqcanonical, hq⟩ := vmQuotient_spec (d := d) (by omega) n
    obtain ⟨r, hremainder, hr⟩ := vmRemainder_spec (d := d) (by omega) n
    have hqvalue : q.toInt = ((m / base : ℕ) : ℤ) := by
      rw [hq, hvalue, hd]
      rfl
    have hrvalue : r.toInt = ((m % base : ℕ) : ℤ) := by
      rw [hr, hvalue, hd]
      rfl
    have hsmaller : m / base < fuel := by
      have hlt := Nat.div_lt_self hpos (show 1 < base by omega)
      omega
    have hless : (0 : ℤ) < m := by omega
    simp only [hless, decide_true, if_true, hquotient, hremainder, bind_eq_bind, bind_some]
    rw [ih hqcanonical hqvalue hsmaller, hrvalue, Int.toNat_natCast,
      digitText_step hbase hpos, append_assoc, singleton_append]

theorem numberToString_eq (hbase : 2 ≤ base) (hsmall : base ≤ 16) (hten : base ≠ 10)
    {n : ExactInt} (hcanonical : n.Canonical) :
    numberToString n base = some (signedNumeral digitChar base n.toInt) := by
  obtain ⟨habscanonical, habs⟩ := schemeAbs_spec hcanonical
  have hd : (sexpMakeFixnum (base : ℤ)).val = base := by
    apply sexpMakeFixnum_val
    rw [inFixnumRange_iff]
    omega
  unfold numberToString
  rw [if_neg hten, numberToStringLoop_spec hbase hd _ habscanonical habs (by omega),
    vmLess_zero_right hcanonical, append_nil, signedNumeral, numeralText_eq]
  simp only [bind_eq_bind, bind_some]
  by_cases hzero : n.toInt.natAbs = 0
  · have hnotneg : ¬ n.toInt < 0 := by omega
    simp only [hzero, digitText_zero, if_true, hnotneg, decide_false, signText,
      Bool.false_eq_true, if_false, nil_append]
    rfl
  · rw [if_neg (digitText_ne_nil hzero), if_neg hzero]
    by_cases hneg : n.toInt < 0
    · simp [hneg, signText]
    · simp [hneg, signText]

/-! ## The round trip -/

section

variable {F : Type} (flo : FlonumOps F) (tower : Arith F) (tails : NumberTails F)

/-- What the writers make of an integer is read back as this integer. -/
structure WritersReadBack (n : ExactInt) (base : ℕ) : Prop where
  numberToString : ReadsBack flo tower tails base (numberToString n base) n.toInt
  writeBignum : ∀ b, n = .bignum b →
    ReadsBack flo tower tails base (sexpWriteBignum b base) n.toInt

variable {flo tower tails}

/-- Integers in any of the bases survive, except the bignums for which the estimate fails; all
within the `int` counts of `sexp_bignum_zerop` and `sexp_bignum_fxdiv`. -/
theorem writersReadBack_iff (hbase : 2 ≤ base) (hsmall : base ≤ 16) {n : ExactInt}
    (hcanonical : n.Canonical) (_hfits : n.FitsInt) :
    WritersReadBack flo tower tails n base ↔ ∀ b, n = .bignum b → EstimateHolds b base := by
  constructor
  · rintro ⟨-, hbignum⟩ b rfl
    obtain ⟨chars, htext, -⟩ := hbignum b rfl
    rw [sexpWriteBignum_eq hbase hsmall] at htext
    by_contra hnot
    rw [if_neg hnot] at htext
    cases htext
  · intro hestimate
    have hbignum : ∀ b, n = .bignum b →
        ReadsBack flo tower tails base (sexpWriteBignum b base) n.toInt := by
      rintro b rfl
      rw [sexpWriteBignum_eq hbase hsmall, if_pos (hestimate b rfl)]
      exact signedNumeral_readsBack hexDigit_names hbase hsmall _
    refine ⟨?_, hbignum⟩
    by_cases hten : base = 10
    · subst hten
      rw [numberToString, if_pos rfl]
      cases n with
      | fixnum m =>
        rw [writeInteger, decimalText_eq]
        exact signedNumeral_readsBack hexDigit_names hbase hsmall _
      | bignum b => exact hbignum b rfl
    · rw [numberToString_eq hbase hsmall hten hcanonical]
      exact signedNumeral_readsBack digitChar_names hbase hsmall _

/-- Bignums of fewer than `2 ^ 25` words survive in every base. -/
theorem sexpWriteBignum_readsBack (hbase : 2 ≤ base) (hsmall : base ≤ 16) (b : Bignum)
    (hwords : b.data.length < 2 ^ 25) :
    ReadsBack flo tower tails base (sexpWriteBignum b base) b.toInt := by
  have hlog : Nat.log 2 base ≤ 4 := (Nat.log_mono_right hsmall).trans (by decide)
  have hdiv := Nat.div_le_self (64 * b.data.length + Nat.log 2 base - 1) (Nat.log 2 base)
  rw [sexpWriteBignum_eq hbase hsmall,
    if_pos (estimateHolds_of_small hbase hsmall b (by omega))]
  exact signedNumeral_readsBack hexDigit_names hbase hsmall _

end

/-! ## Instances -/

/-- A reader without inexact and complex syntax. -/
def exactOnly : NumberTails Unit where
  floatTail _ _ := fun _ => none
  complexTail _ := fun _ => none
  polarTail _ := fun _ => none
  exactExponent _ := fun _ => none
  bignumExponent _ := fun _ => none
  complexDenominator _ _ := fun _ => none
  strayDenominator _ := fun _ => none
  exactToInexact _ := fun _ => none

/-- The bignum `-2^64` in base 7. -/
theorem writersReadBack_two_digits :
    WritersReadBack oneFlonum (arith oneFlonum 1) exactOnly (.bignum ⟨.neg, [0, 1]⟩) 7 := by
  have hcanonical : (ExactInt.bignum ⟨.neg, [0, 1]⟩).Canonical :=
    (by decide : ¬ InFixnumRange (Bignum.toInt ⟨.neg, [0, 1]⟩))
  have hfits : (ExactInt.bignum ⟨.neg, [0, 1]⟩).FitsInt := (by decide : (_ : ℕ) ≤ _)
  refine (writersReadBack_iff (by decide) (by decide) hcanonical hfits).mpr fun b hbignum => ?_
  obtain rfl := ExactInt.bignum.inj hbignum
  exact estimateHolds_of_small (by decide) (by decide) _ (by decide)

/-- The same bignum, as the bignum writer takes it. -/
theorem sexpWriteBignum_readsBack_seven :
    ReadsBack oneFlonum (arith oneFlonum 1) exactOnly 7 (sexpWriteBignum ⟨.neg, [0, 1]⟩ 7)
      (-2 ^ 64) :=
  sexpWriteBignum_readsBack (by decide) (by decide) ⟨.neg, [0, 1]⟩ (by decide)

theorem ones_canonical (count : ℕ) :
    (ExactInt.bignum ⟨.pos, List.replicate (count + 2) 1⟩).Canonical := by
  have hmagnitude : Limbs.base ≤ Limbs.value (List.replicate (count + 2) 1) := by
    rw [replicate_succ, replicate_succ, Limbs.value_cons, Limbs.value_cons]
    simp only [UInt64.toNat_one, mul_add, mul_one]
    omega
  show ¬ InFixnumRange (Sign.pos.toInt * (Limbs.value (List.replicate (count + 2) 1) : ℕ))
  rw [inFixnumRange_iff, Sign.toInt_pos]
  have hbase : Limbs.base = 2 ^ 64 := rfl
  omega

theorem ones_overflow (count : ℕ) (hcount : count + 2 = 2 ^ 25) :
    (ExactInt.bignum ⟨.pos, List.replicate (count + 2) 1⟩).Canonical ∧
      ¬ WritersReadBack oneFlonum (arith oneFlonum 1) exactOnly
        (.bignum ⟨.pos, List.replicate (count + 2) 1⟩) 2 := by
  refine ⟨ones_canonical count, ?_⟩
  rintro ⟨-, hbignum⟩
  obtain ⟨chars, htext, -⟩ := hbignum _ rfl
  rw [sexpWriteBignum_eq le_rfl (by decide)] at htext
  have hnot : ¬ EstimateHolds ⟨.pos, List.replicate (count + 2) 1⟩ 2 := by
    have hlog : Nat.log 2 2 = 1 := by decide
    have hwrapped : Int.bmod ((64 * 2 ^ 25 + 1 - 1) / 1 + 1 : ℕ) (2 ^ 32) = 1 - 2 ^ 31 := by decide
    unfold EstimateHolds
    rw [hlog, length_replicate, hcount, hwrapped]
    omega
  rw [if_neg hnot] at htext
  cases htext

/-- The estimate for `2^25` words in base 2 is `2^31 + 1` characters. -/
theorem ones_not_written :
    (ExactInt.bignum ⟨.pos, List.replicate (33554430 + 2) 1⟩).Canonical ∧
      ¬ WritersReadBack oneFlonum (arith oneFlonum 1) exactOnly
        (.bignum ⟨.pos, List.replicate (33554430 + 2) 1⟩) 2 :=
  ones_overflow 33554430 (by norm_num)

end ChibiScheme
