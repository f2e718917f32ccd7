import ChibiScheme.Numeric.Compare

/-!
# The arithmetic opcodes on exact integers

The virtual machine adds, subtracts, multiplies, divides and compares two fixnums itself, with an eye
on overflow, and leaves the other integers to the numeric tower.
-/

namespace ChibiScheme

namespace ExactInt

/-- `SEXP_ZERO` as an integer -/
def zero : ExactInt := fixnum sexpZero

/-- `SEXP_OP_SUB` -/
def opSub : ExactInt → ExactInt → ExactInt
  | fixnum a, fixnum b =>
    if InFixnumRange (a.val - b.val) then fixnum (sexpMakeFixnum (a.val - b.val))
    else subInteger (bignum (sexpFixnumToBignum a)) (fixnum b)
  | a, b => subInteger a b

/-- `SEXP_OP_MUL` -/
def opMul : ExactInt → ExactInt → ExactInt
  | fixnum a, fixnum b =>
    if InFixnumRange (a.val * b.val) then fixnum (sexpMakeFixnum (a.val * b.val))
    else mulInteger (bignum (sexpFixnumToBignum a)) (fixnum b)
  | a, b => mulInteger a b

/-- `SEXP_OP_QUOTIENT` -/
def opQuotient : ExactInt → ExactInt → Option IntResult
  | fixnum a, fixnum b =>
    if b = sexpZero then some (.exception "divide by zero")
    else if a.val = sexpMinFixnum ∧ b.val = -1 then
      some (.integer (negateExact (bignum (sexpFixnumToBignum a))))
    else some (.integer (fixnum (sexpFxDiv a b)))
  | a, b => quotientInteger a b

/-- `SEXP_OP_REMAINDER` -/
def opRemainder : ExactInt → ExactInt → Option IntResult
  | fixnum a, fixnum b =>
    if b = sexpZero then some (.exception "divide by zero")
    else some (.integer (fixnum (sexpFxRem a b)))
  | a, b => remainderInteger a b

/-- `SEXP_OP_LT` -/
def opLt : ExactInt → ExactInt → Bool
  | fixnum a, fixnum b => decide (a.val < b.val)
  | a, b => decide ((compareInteger a b).val < 0)

/-- `SEXP_OP_EQN` -/
def opEqn : ExactInt → ExactInt → Bool
  | fixnum a, fixnum b => decide (a = b)
  | a, b => decide (compareInteger a b = sexpZero)

variable {a b : ExactInt}

theorem zero_canonical : zero.Canonical := trivial

@[simp] theorem toInt_zero : zero.toInt = 0 := sexpZero_val

theorem Canonical.eq_zero_iff (ha : a.Canonical) : a = zero ↔ a.toInt = 0 := by
  cases a with
  | fixnum n => simp [zero, eq_sexpZero_iff]
  | bignum b =>
    have hwide : ¬ InFixnumRange b.toInt := ha
    rw [inFixnumRange_iff] at hwide
    simp only [zero, reduceCtorEq, false_iff, toInt_bignum]
    omega

/-! ## What the opcodes return -/

theorem opSub_spec (a b : ExactInt) :
    (opSub a b).toInt = a.toInt - b.toInt ∧ (opSub a b).Canonical := by
  have htower : ∀ {a b : ExactInt}, SubExact a b →
      (subInteger a b).toInt = a.toInt - b.toInt ∧ (subInteger a b).Canonical :=
    fun h => ⟨(subInteger_toInt_iff _ _).mpr h, subInteger_canonical _ _⟩
  cases a with
  | fixnum a =>
    cases b with
    | fixnum b =>
      by_cases hrange : InFixnumRange (a.val - b.val)
      · rw [opSub, if_pos hrange]
        exact ⟨sexpMakeFixnum_val hrange, trivial⟩
      · rw [opSub, if_neg hrange]
        obtain ⟨hvalue, hcanonical⟩ :=
          @htower (bignum (sexpFixnumToBignum a)) (fixnum b) trivial
        rw [toInt_bignum, sexpFixnumToBignum_toInt] at hvalue
        exact ⟨hvalue, hcanonical⟩
    | bignum b => exact @htower (fixnum a) (bignum b) trivial
  | bignum a => exact @htower (bignum a) b (by cases b <;> trivial)

theorem opMul_spec (a b : ExactInt) :
    (opMul a b).toInt = a.toInt * b.toInt ∧ (opMul a b).Canonical := by
  cases a with
  | fixnum a =>
    cases b with
    | fixnum b =>
      by_cases hrange : InFixnumRange (a.val * b.val)
      · rw [opMul, if_pos hrange]
        exact ⟨sexpMakeFixnum_val hrange, trivial⟩
      · rw [opMul, if_neg hrange]
        obtain ⟨hvalue, hcanonical⟩ := mulInteger_spec (bignum (sexpFixnumToBignum a)) (fixnum b)
        rw [toInt_bignum, sexpFixnumToBignum_toInt] at hvalue
        exact ⟨hvalue, hcanonical⟩
    | bignum b => exact mulInteger_spec (fixnum a) (bignum b)
  | bignum a => exact mulInteger_spec (bignum a) b

theorem opRemainder_spec (hb : b.Canonical) (hne : b.toInt ≠ 0) (hmin : ¬ MinByItsMagnitude a b) :
    ∃ r, opRemainder a b = some (.integer r) ∧ r.toInt = a.toInt.tmod b.toInt ∧ r.Canonical := by
  cases a with
  | fixnum a =>
    cases b with
    | fixnum b =>
      have hzero : b ≠ sexpZero := fun h => hne ((eq_sexpZero_iff b).mp h)
      rw [opRemainder, if_neg hzero]
      exact ⟨_, rfl, sexpFxRem_val a b, trivial⟩
    | bignum b => exact remainderInteger_spec hne hb.wide hmin
  | bignum a => exact remainderInteger_spec hne hb.wide hmin

theorem opRemainder_min (hmin : MinByItsMagnitude a b) : opRemainder a b = some (.integer a) := by
  cases a with
  | fixnum a =>
    cases b with
    | fixnum b => exact hmin.elim
    | bignum b => rfl
  | bignum a => exact hmin.elim

theorem tdiv_inFixnumRange {a b : Fixnum} (h : ¬ (a.val = sexpMinFixnum ∧ b.val = -1)) :
    InFixnumRange (a.val.tdiv b.val) := by
  have hbounds := a.bounds
  have habs : (a.val.tdiv b.val).natAbs = a.val.natAbs / b.val.natAbs := Int.natAbs_tdiv _ _
  have hle : (a.val.tdiv b.val).natAbs ≤ a.val.natAbs := by
    rw [habs]
    exact Nat.div_le_self _ _
  have htop : a.val.tdiv b.val ≠ 2 ^ 62 := by
    intro htop
    have hmin : a.val = -2 ^ 62 := by omega
    have hunit : b.val.natAbs = 1 := by
      by_contra hunit
      have hlt : (2 : ℕ) ^ 62 / b.val.natAbs < 2 ^ 62 ∨ b.val.natAbs = 0 := by
        rcases Nat.eq_zero_or_pos b.val.natAbs with hzero | hpos
        · exact Or.inr hzero
        · exact Or.inl (Nat.div_lt_self (by decide) (by omega))
      rw [htop, hmin] at habs
      have habs' : (2 : ℕ) ^ 62 = 2 ^ 62 / b.val.natAbs := by simpa using habs
      rcases hlt with hlt | hzero
      · omega
      · rw [hzero, Nat.div_zero] at habs'
        omega
    have hone : b.val ≠ 1 := by
      intro hone
      rw [hone, Int.tdiv_one] at htop
      omega
    exact h ⟨hmin, by omega⟩
  rw [inFixnumRange_iff]
  omega

theorem opQuotient_spec (ha : a.Canonical) (hb : b.Canonical) (hne : b.toInt ≠ 0)
    (hmin : ¬ MinByItsMagnitude a b) :
    ∃ q, opQuotient a b = some (.integer q) ∧ q.toInt = a.toInt.tdiv b.toInt ∧ q.Canonical := by
  have htower : ∀ {a b : ExactInt}, a.Canonical → b.Canonical → b.toInt ≠ 0 →
      ¬ MinByItsMagnitude a b → ∃ q, quotientInteger a b = some (.integer q) ∧
        q.toInt = a.toInt.tdiv b.toInt ∧ q.Canonical := by
    intro a b ha hb hne hmin
    obtain ⟨q, hrun, hvalue, hcanonical⟩ := quotientInteger_spec hne hb.wide hmin
    refine ⟨q, hrun, hvalue, ?_⟩
    rcases hcanonical with ⟨-, hsame⟩ | hcanonical
    · rw [hsame]
      exact ha
    · exact hcanonical
  cases a with
  | fixnum a =>
    cases b with
    | fixnum b =>
      have hzero : b ≠ sexpZero := fun h => hne ((eq_sexpZero_iff b).mp h)
      rw [opQuotient, if_neg hzero]
      split
      · -- the least fixnum divided by -1
        rename_i hwrap
        have hvalue : ((sexpFixnumToBignum a).negate).toInt = 2 ^ 62 := by
          rw [Bignum.toInt_negate, sexpFixnumToBignum_toInt, hwrap.1]
          decide
        refine ⟨_, rfl, ?_, ?_⟩
        · show ((sexpFixnumToBignum a).negate).toInt = a.val.tdiv b.val
          rw [hvalue, hwrap.1, hwrap.2]
          decide
        · show ¬ InFixnumRange ((sexpFixnumToBignum a).negate).toInt
          rw [hvalue, inFixnumRange_iff]
          omega
      · rename_i hsafe
        exact ⟨_, rfl, sexpMakeFixnum_val (tdiv_inFixnumRange hsafe), trivial⟩
    | bignum b => exact htower ha hb hne hmin
  | bignum a => exact htower ha hb hne hmin

/-! ## Comparing with zero -/

theorem compareInteger_bignum_zero {b : Bignum} (hb : (bignum b).Canonical) :
    (compareInteger (bignum b) zero).val.natAbs = 1 ∧
      (compareInteger (bignum b) zero).val.sign = b.toInt.sign := by
  obtain ⟨habs, hsign⟩ := compareFixBig_spec sexpZero hb
  have hvalue := sexpFxNeg_val (compareFixBig sexpZero b) (by omega)
  show (sexpFxNeg (compareFixBig sexpZero b)).val.natAbs = 1 ∧ _
  rw [sexpZero_val, zero_sub, Int.sign_neg] at hsign
  refine ⟨by rw [hvalue, Int.natAbs_neg, habs], ?_⟩
  show (sexpFxNeg (compareFixBig sexpZero b)).val.sign = _
  rw [hvalue, Int.sign_neg, hsign, neg_neg]

theorem opLt_zero (ha : a.Canonical) : opLt a zero = decide (a.toInt < 0) := by
  cases a with
  | fixnum n =>
    show decide (n.val < sexpZero.val) = _
    rw [sexpZero_val, toInt_fixnum]
  | bignum b =>
    obtain ⟨-, hsign⟩ := compareInteger_bignum_zero ha
    show decide ((compareInteger (bignum b) zero).val < 0) = decide (b.toInt < 0)
    rw [decide_eq_decide, ← Int.sign_eq_neg_one_iff_neg, hsign, Int.sign_eq_neg_one_iff_neg]

theorem opEqn_zero (ha : a.Canonical) : opEqn a zero = decide (a.toInt = 0) := by
  cases a with
  | fixnum n =>
    show decide (n = sexpZero) = _
    rw [toInt_fixnum, decide_eq_decide, eq_sexpZero_iff]
  | bignum b =>
    obtain ⟨habs, -⟩ := compareInteger_bignum_zero ha
    have hwide : b.toInt ≠ 0 := fun h => by
      have hne : ¬ bignum b = zero := fun heq => by cases heq
      exact hne (ha.eq_zero_iff.mpr h)
    show decide (compareInteger (bignum b) zero = sexpZero) = decide (b.toInt = 0)
    rw [decide_eq_decide]
    constructor
    · intro heq
      rw [heq, sexpZero_val] at habs
      omega
    · intro heq
      exact (hwide heq).elim

end ExactInt

end ChibiScheme
