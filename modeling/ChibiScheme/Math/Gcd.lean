import ChibiScheme.Numeric.Opcodes

/-!
# Greatest common divisors and least common multiples

`gcd` and `lcm` of the standard library run a step of two arguments over a list of them.  The step
makes its result nonnegative, the list of a single argument never comes to a step.  A number divides
nothing but zero through zero, which is where `lcm` fails on two zeros.
-/

namespace ChibiScheme

open List

namespace ExactInt

/-- `abs` -/
def abs (x : ExactInt) : ExactInt := if opLt x zero then opSub zero x else x

/-- The loop of `gcd` and `lcm` over the arguments, with the step of two -/
def foldArguments (step : ExactInt → ExactInt → Option IntResult) :
    ExactInt → List ExactInt → Option IntResult
  | x, [] => some (.integer x)
  | x, y :: ls =>
    match step x y with
    | some (.integer z) => foldArguments step z ls
    | failure => failure

/-- `gcd` of a list of arguments, with the step of two -/
def gcdWith (gcd2 : ExactInt → ExactInt → Option IntResult) : List ExactInt → Option IntResult
  | [] => some (.integer zero)
  | x :: ls => foldArguments gcd2 x ls

/-- `gcd2`, with fuel for its calls of `gcd` -/
def gcd2 : ℕ → ExactInt → ExactInt → Option IntResult
  | 0, _, _ => none
  | fuel + 1, a, b =>
    if opEqn b zero then some (.integer (abs a))
    else
      match opRemainder a b with
      | some (.integer r) => gcdWith (gcd2 fuel) [b, r]
      | failure => failure

/-- `gcd` -/
def gcd (fuel : ℕ) (args : List ExactInt) : Option IntResult := gcdWith (gcd2 fuel) args

/-- `lcm2` -/
def lcm2 (fuel : ℕ) (a b : ExactInt) : Option IntResult :=
  match gcd fuel [a, b] with
  | some (.integer g) =>
    match opQuotient (opMul a b) g with
    | some (.integer q) => some (.integer (abs q))
    | failure => failure
  | failure => failure

/-- `lcm` -/
def lcm (fuel : ℕ) : List ExactInt → Option IntResult
  | [] => some (.integer (fixnum sexpOne))
  | x :: ls => foldArguments (lcm2 fuel) x ls

variable {a b x : ExactInt} {args : List ExactInt}

theorem abs_spec (hx : x.Canonical) : (abs x).toInt = |x.toInt| ∧ (abs x).Canonical := by
  rw [abs, opLt_zero hx]
  by_cases hneg : x.toInt < 0
  · rw [decide_eq_true hneg, if_pos rfl, abs_of_neg hneg]
    obtain ⟨hvalue, hcanonical⟩ := opSub_spec zero x
    rw [toInt_zero, zero_sub] at hvalue
    exact ⟨hvalue, hcanonical⟩
  · rw [decide_eq_false hneg, if_neg (by decide), abs_of_nonneg (by omega)]
    exact ⟨rfl, hx⟩

/-! ## Computations with enough fuel -/

/-- The computation ends with this result, however much more fuel it has. -/
def EndsWith (run : ℕ → Option IntResult) (result : IntResult) : Prop :=
  ∃ least, ∀ fuel, least ≤ fuel → run fuel = some result

variable {run : ℕ → Option IntResult} {result : IntResult}

theorem EndsWith.unique {result' : IntResult}
    (h : EndsWith run result) (h' : EndsWith run result') : result = result' := by
  obtain ⟨least, hrun⟩ := h
  obtain ⟨least', hrun'⟩ := h'
  have hboth := hrun (max least least') (le_max_left _ _)
  rw [hrun' _ (le_max_right _ _)] at hboth
  exact (Option.some.inj hboth).symm

theorem EndsWith.of_forall (h : ∀ fuel, run fuel = some result) :
    EndsWith run result := ⟨0, fun fuel _ => h fuel⟩

theorem EndsWith.of_succ {run' : ℕ → Option IntResult} (h : EndsWith run result)
    (hstep : ∀ fuel, run' (fuel + 1) = run fuel) :
    EndsWith run' result := by
  obtain ⟨least, hrun⟩ := h
  refine ⟨least + 1, fun fuel hfuel => ?_⟩
  obtain ⟨fuel, rfl⟩ := Nat.exists_eq_add_one.mpr (by omega : 0 < fuel)
  rw [hstep]
  exact hrun fuel (by omega)

variable (fuel : ℕ)

variable {y z : ExactInt} {ls : List ExactInt}

attribute [local simp] foldArguments in
theorem EndsWith.fold {step : ℕ → ExactInt → ExactInt → Option IntResult} {x : ExactInt}
    (hstep : EndsWith (fun fuel => step fuel x y) (.integer z))
    (hrest : EndsWith (fun fuel => foldArguments (step fuel) z ls) result) :
    EndsWith (fun fuel => foldArguments (step fuel) x (y :: ls)) result := by
  obtain ⟨least, hrun⟩ := hstep
  obtain ⟨least', hrun'⟩ := hrest
  refine ⟨max least least', fun fuel hfuel => ?_⟩
  have hfirst : step fuel x y = some (.integer z) := hrun fuel (by omega)
  show foldArguments (step fuel) x (y :: ls) = some result
  rw [foldArguments, hfirst]
  exact hrun' fuel (by omega)

theorem EndsWith.fold_exception {step : ℕ → ExactInt → ExactInt → Option IntResult} {x : ExactInt}
    {message : String} (hstep : EndsWith (fun fuel => step fuel x y) (.exception message)) :
    EndsWith (fun fuel => foldArguments (step fuel) x (y :: ls)) (.exception message) := by
  obtain ⟨least, hrun⟩ := hstep
  refine ⟨least, fun fuel hfuel => ?_⟩
  have hfirst : step fuel x y = some (.exception message) := hrun fuel hfuel
  show foldArguments (step fuel) x (y :: ls) = _
  rw [foldArguments, hfirst]

/-! ## The step of two arguments -/

theorem gcd2_zero (hb : b.Canonical) (hzero : b.toInt = 0) :
    gcd2 (fuel + 1) a b = some (.integer (abs a)) := by
  rw [gcd2, opEqn_zero hb, decide_eq_true hzero, if_pos rfl]

theorem gcd_pair (a b : ExactInt) : gcd fuel [a, b] = gcd2 fuel a b := by
  show foldArguments (gcd2 fuel) a [b] = gcd2 fuel a b
  rw [foldArguments]
  cases gcd2 fuel a b with
  | none => rfl
  | some result => cases result <;> rfl

theorem gcd2_succ (hb : b.Canonical) (hne : b.toInt ≠ 0) {r : ExactInt}
    (hr : opRemainder a b = some (.integer r)) : gcd2 (fuel + 1) a b = gcd2 fuel b r := by
  rw [gcd2, opEqn_zero hb, decide_eq_false hne, if_neg (by decide), hr]
  exact gcd_pair fuel b r

theorem gcd_tmod (m n : ℤ) : Int.gcd n (m.tmod n) = Int.gcd m n := by
  have habs : (m.tmod n).natAbs = m.natAbs % n.natAbs := Int.natAbs_tmod m n
  rw [Int.gcd_def, Int.gcd_def, habs, Nat.gcd_comm, ← Nat.gcd_rec, Nat.gcd_comm]

theorem toInt_of_minByItsMagnitude (hmin : MinByItsMagnitude a b) :
    a.toInt = -2 ^ 62 ∧ b.toInt.natAbs = 2 ^ 62 := by
  cases a with
  | fixnum a =>
    cases b with
    | fixnum b => exact hmin.elim
    | bignum b =>
      obtain ⟨ha, hb⟩ := hmin
      exact ⟨ha, b.natAbs_toInt.trans hb⟩
  | bignum a => exact hmin.elim

/-- Away from the least fixnum the remainder is smaller than the divisor, and the induction is on
the divisor. -/
theorem gcd2_of_not_min (ha : a.Canonical) (hb : b.Canonical) (hmin : ¬ MinByItsMagnitude a b) :
    ∃ g, EndsWith (fun fuel => gcd2 fuel a b) (.integer g) ∧
      g.toInt = Int.gcd a.toInt b.toInt ∧ g.Canonical := by
  induction hsize : b.toInt.natAbs using Nat.strong_induction_on generalizing a b with
  | _ size ih =>
    by_cases hzero : b.toInt = 0
    · obtain ⟨hvalue, hcanonical⟩ := abs_spec ha
      refine ⟨abs a, ?_, ?_, hcanonical⟩
      · exact (EndsWith.of_forall fun _ => rfl).of_succ fun fuel => gcd2_zero fuel hb hzero
      · rw [hvalue, hzero, Int.gcd_zero_right, Int.natCast_natAbs]
    · obtain ⟨r, hrun, hvalue, hcanonical⟩ := opRemainder_spec hb hzero hmin
      have hless : r.toInt.natAbs < b.toInt.natAbs := by
        rw [hvalue, Int.natAbs_tmod]
        exact Nat.mod_lt _ (by omega)
      have hnext : ¬ MinByItsMagnitude b r := by
        intro hnext
        have hsame := toInt_of_minByItsMagnitude hnext
        omega
      obtain ⟨g, hends, hgcd, hg⟩ := ih _ (by omega) hb hcanonical hnext rfl
      rw [hvalue, gcd_tmod] at hgcd
      exact ⟨g, hends.of_succ fun fuel => gcd2_succ fuel hb hzero hrun, hgcd, hg⟩

/-- The loop ends with the greatest common divisor. -/
theorem gcd2_spec (ha : a.Canonical) (hb : b.Canonical) :
    ∃ g, EndsWith (fun fuel => gcd2 fuel a b) (.integer g) ∧
      g.toInt = Int.gcd a.toInt b.toInt ∧ g.Canonical := by
  by_cases hmin : MinByItsMagnitude a b
  · obtain ⟨hvalue, habs⟩ := toInt_of_minByItsMagnitude hmin
    have hswapped : ¬ MinByItsMagnitude b a := by
      intro hswapped
      cases a with
      | fixnum a => cases b <;> exact hswapped
      | bignum a => exact hmin
    obtain ⟨g, hends, hgcd, hg⟩ := gcd2_of_not_min hb ha hswapped
    refine ⟨g, hends.of_succ fun fuel => ?_, ?_, hg⟩
    · exact gcd2_succ fuel hb (by omega) (opRemainder_min hmin)
    · rw [hgcd, Int.gcd_comm]
  · exact gcd2_of_not_min ha hb hmin

theorem opMul_not_min {g : ExactInt} (hleft : g.toInt ∣ a.toInt) (hright : g.toInt ∣ b.toInt) :
    ¬ MinByItsMagnitude (opMul a b) g := by
  intro hmin
  obtain ⟨hproduct, hg⟩ := toInt_of_minByItsMagnitude hmin
  rw [(opMul_spec a b).1] at hproduct
  have hsquare : g.toInt * g.toInt ∣ a.toInt * b.toInt := mul_dvd_mul hleft hright
  have hle := Int.natAbs_le_of_dvd_ne_zero hsquare (by rw [hproduct]; decide)
  rw [hproduct, Int.natAbs_mul, hg] at hle
  exact absurd hle (by decide)

/-- The product of two integers, by their greatest common divisor. -/
theorem lcm2_spec (ha : a.Canonical) (hb : b.Canonical) (hne : a.toInt ≠ 0 ∨ b.toInt ≠ 0) :
    ∃ l, EndsWith (fun fuel => lcm2 fuel a b) (.integer l) ∧
      l.toInt = Int.lcm a.toInt b.toInt ∧ l.Canonical := by
  obtain ⟨g, ⟨least, hrun⟩, hgcd, hg⟩ := gcd2_spec ha hb
  have hnonzero : g.toInt ≠ 0 := by
    rw [hgcd]
    intro hzero
    have hboth := Int.gcd_eq_zero_iff.mp (Int.natCast_eq_zero.mp hzero)
    exact hne.elim (fun h => h hboth.1) (fun h => h hboth.2)
  have hleft : g.toInt ∣ a.toInt := hgcd ▸ Int.gcd_dvd_left _ _
  have hright : g.toInt ∣ b.toInt := hgcd ▸ Int.gcd_dvd_right _ _
  obtain ⟨hproduct, hcanonical⟩ := opMul_spec a b
  obtain ⟨q, hquotient, hvalue, hq⟩ :=
    opQuotient_spec hcanonical hg hnonzero (opMul_not_min hleft hright)
  obtain ⟨habs, hl⟩ := abs_spec hq
  refine ⟨abs q, ⟨least, fun fuel hfuel => ?_⟩, ?_, hl⟩
  · have hfirst : gcd2 fuel a b = some (.integer g) := hrun fuel hfuel
    show lcm2 fuel a b = _
    rw [lcm2, gcd_pair, hfirst]
    show (match opQuotient (opMul a b) g with
      | some (.integer q) => some (IntResult.integer (abs q))
      | failure => failure) = _
    rw [hquotient]
  · have hexact : q.toInt * g.toInt = a.toInt * b.toInt := by
      rw [hvalue, hproduct]
      exact Int.tdiv_mul_cancel (Dvd.dvd.mul_right hleft b.toInt)
    have hlcm : (Int.lcm a.toInt b.toInt : ℤ) * g.toInt = |q.toInt| * g.toInt := by
      have hnonneg : |g.toInt| = g.toInt := abs_of_nonneg (by rw [hgcd]; exact Int.natCast_nonneg _)
      calc (Int.lcm a.toInt b.toInt : ℤ) * g.toInt
          = ((Int.gcd a.toInt b.toInt * Int.lcm a.toInt b.toInt : ℕ) : ℤ) := by
            rw [hgcd, Nat.cast_mul, mul_comm]
        _ = |a.toInt * b.toInt| := by
            rw [Int.gcd_mul_lcm, ← Int.natAbs_mul, Int.natCast_natAbs]
        _ = |q.toInt| * g.toInt := by rw [← hexact, abs_mul, hnonneg]
    rw [habs]
    exact (mul_right_cancel₀ hnonzero hlcm).symm

theorem lcm2_zeros_succ : lcm2 (fuel + 1) zero zero = some (.exception "divide by zero") := by
  have hgcd : gcd2 (fuel + 1) zero zero = some (.integer zero) := by
    rw [gcd2_zero fuel zero_canonical toInt_zero]
    rfl
  rw [lcm2, gcd_pair, hgcd]
  rfl

theorem lcm2_zeros (ha : a.Canonical) (hb : b.Canonical) (hzero : a.toInt = 0)
    (hzero' : b.toInt = 0) :
    EndsWith (fun fuel => lcm2 fuel a b) (.exception "divide by zero") := by
  rw [ha.eq_zero_iff.mpr hzero, hb.eq_zero_iff.mpr hzero']
  refine ⟨1, fun fuel hfuel => ?_⟩
  obtain ⟨fuel, rfl⟩ := Nat.exists_eq_add_one.mpr (by omega : 0 < fuel)
  exact lcm2_zeros_succ fuel

/-! ## The list of arguments -/

/-- The greatest common divisor of the arguments -/
structure IsGcd (args : List ExactInt) (g : ℤ) : Prop where
  nonneg : 0 ≤ g
  dvd : ∀ x ∈ args, g ∣ x.toInt
  greatest : ∀ d : ℤ, (∀ x ∈ args, d ∣ x.toInt) → d ∣ g

/-- The least common multiple of the arguments -/
structure IsLcm (args : List ExactInt) (l : ℤ) : Prop where
  nonneg : 0 ≤ l
  dvd : ∀ x ∈ args, x.toInt ∣ l
  least : ∀ m : ℤ, (∀ x ∈ args, x.toInt ∣ m) → l ∣ m

/-- `gcd` ends with the greatest common divisor of its arguments. -/
def GcdRight (args : List ExactInt) : Prop :=
  ∃ g, EndsWith (fun fuel => gcd fuel args) (.integer g) ∧ IsGcd args g.toInt

/-- `lcm` ends with the least common multiple of its arguments. -/
def LcmRight (args : List ExactInt) : Prop :=
  ∃ l, EndsWith (fun fuel => lcm fuel args) (.integer l) ∧ IsLcm args l.toInt

/-- How many arguments are zero. -/
def zeros (args : List ExactInt) : ℕ := args.countP fun x => decide (x.toInt = 0)

theorem IsGcd.single (hnonneg : 0 ≤ x.toInt) : IsGcd [x] x.toInt where
  nonneg := hnonneg
  dvd y hy := by rw [mem_singleton.mp hy]
  greatest d hd := hd x (mem_singleton_self x)

theorem IsLcm.single (hnonneg : 0 ≤ x.toInt) : IsLcm [x] x.toInt where
  nonneg := hnonneg
  dvd y hy := by rw [mem_singleton.mp hy]
  least m hm := hm x (mem_singleton_self x)

theorem IsGcd.of_pair {g : ℤ} (hz : z.toInt = Int.gcd x.toInt y.toInt) (h : IsGcd (z :: ls) g) :
    IsGcd (x :: y :: ls) g where
  nonneg := h.nonneg
  dvd := by
    have hfirst := h.dvd z mem_cons_self
    rw [hz, Int.dvd_coe_gcd_iff] at hfirst
    simp only [forall_mem_cons]
    exact ⟨hfirst.1, hfirst.2, fun w hw => h.dvd w (mem_cons_of_mem z hw)⟩
  greatest d hd := by
    simp only [forall_mem_cons] at hd
    apply h.greatest
    simp only [forall_mem_cons]
    rw [hz]
    exact ⟨Int.dvd_coe_gcd hd.1 hd.2.1, hd.2.2⟩

theorem IsLcm.of_pair {l : ℤ} (hz : z.toInt = Int.lcm x.toInt y.toInt) (h : IsLcm (z :: ls) l) :
    IsLcm (x :: y :: ls) l where
  nonneg := h.nonneg
  dvd := by
    have hfirst := h.dvd z mem_cons_self
    rw [hz, Int.coe_lcm_dvd_iff] at hfirst
    simp only [forall_mem_cons]
    exact ⟨hfirst.1, hfirst.2, fun w hw => h.dvd w (mem_cons_of_mem z hw)⟩
  least m hm := by
    simp only [forall_mem_cons] at hm
    apply h.least
    simp only [forall_mem_cons]
    rw [hz]
    exact ⟨Int.coe_lcm_dvd hm.1 hm.2.1, hm.2.2⟩

theorem zeros_cons (x : ExactInt) (ls : List ExactInt) :
    zeros (x :: ls) = zeros ls + if x.toInt = 0 then 1 else 0 := by
  simp [zeros, countP_cons]

theorem zeros_of_pair (hz : z.toInt = Int.lcm x.toInt y.toInt) (hne : x.toInt ≠ 0 ∨ y.toInt ≠ 0) :
    zeros (x :: y :: ls) = zeros (z :: ls) := by
  have hiff : z.toInt = 0 ↔ x.toInt = 0 ∨ y.toInt = 0 := by
    rw [hz, Int.natCast_eq_zero, Int.lcm_eq_zero_iff]
  simp only [zeros_cons]
  split <;> split <;> split <;> omega

theorem foldArguments_gcd2 (hx : x.Canonical) (hls : ∀ y ∈ ls, y.Canonical)
    (hsign : ls = [] → 0 ≤ x.toInt) :
    ∃ g, EndsWith (fun fuel => foldArguments (gcd2 fuel) x ls) (.integer g) ∧
      IsGcd (x :: ls) g.toInt := by
  induction ls generalizing x with
  | nil => exact ⟨x, EndsWith.of_forall fun _ => rfl, IsGcd.single (hsign rfl)⟩
  | cons y ls ih =>
    obtain ⟨hy, hrest⟩ := forall_mem_cons.mp hls
    obtain ⟨z, hstep, hvalue, hz⟩ := gcd2_spec hx hy
    have hnonneg : ls = [] → 0 ≤ z.toInt := fun _ => hvalue ▸ Int.natCast_nonneg _
    obtain ⟨g, hends, hgcd⟩ := ih hz hrest hnonneg
    exact ⟨g, hstep.fold hends, hgcd.of_pair hvalue⟩

theorem foldArguments_lcm2 (hx : x.Canonical) (hls : ∀ y ∈ ls, y.Canonical)
    (hsign : ls = [] → 0 ≤ x.toInt) (hzeros : zeros (x :: ls) ≤ 1) :
    ∃ l, EndsWith (fun fuel => foldArguments (lcm2 fuel) x ls) (.integer l) ∧
      IsLcm (x :: ls) l.toInt := by
  induction ls generalizing x with
  | nil => exact ⟨x, EndsWith.of_forall fun _ => rfl, IsLcm.single (hsign rfl)⟩
  | cons y ls ih =>
    obtain ⟨hy, hrest⟩ := forall_mem_cons.mp hls
    have hne : x.toInt ≠ 0 ∨ y.toInt ≠ 0 := by
      by_contra hboth
      simp only [zeros_cons] at hzeros
      rw [if_pos (by tauto), if_pos (by tauto)] at hzeros
      omega
    obtain ⟨z, hstep, hvalue, hz⟩ := lcm2_spec hx hy hne
    have hnonneg : ls = [] → 0 ≤ z.toInt := fun _ => hvalue ▸ Int.natCast_nonneg _
    rw [zeros_of_pair hvalue hne] at hzeros
    obtain ⟨l, hends, hlcm⟩ := ih hz hrest hnonneg hzeros
    exact ⟨l, hstep.fold hends, hlcm.of_pair hvalue⟩

theorem foldArguments_lcm2_zeros (hx : x.Canonical) (hls : ∀ y ∈ ls, y.Canonical)
    (hzeros : 2 ≤ zeros (x :: ls)) :
    EndsWith (fun fuel => foldArguments (lcm2 fuel) x ls) (.exception "divide by zero") := by
  induction ls generalizing x with
  | nil =>
    rw [zeros_cons, zeros, countP_nil] at hzeros
    split at hzeros <;> omega
  | cons y ls ih =>
    obtain ⟨hy, hrest⟩ := forall_mem_cons.mp hls
    by_cases hne : x.toInt ≠ 0 ∨ y.toInt ≠ 0
    · obtain ⟨z, hstep, hvalue, hz⟩ := lcm2_spec hx hy hne
      rw [zeros_of_pair hvalue hne] at hzeros
      exact hstep.fold (ih hz hrest hzeros)
    · have hboth : x.toInt = 0 ∧ y.toInt = 0 := by tauto
      exact (lcm2_zeros hx hy hboth.1 hboth.2).fold_exception

/-- The arguments are a single negative integer, which no step makes nonnegative. -/
def SingleNegative (args : List ExactInt) : Prop := ∃ x : ExactInt, args = [x] ∧ x.toInt < 0

theorem sign_of_not_single (h : ¬ SingleNegative (x :: ls)) (hls : ls = []) : 0 ≤ x.toInt := by
  by_contra hneg
  exact h ⟨x, by rw [hls], by omega⟩

theorem gcdRight_iff (hargs : ∀ x ∈ args, x.Canonical) :
    GcdRight args ↔ ¬ SingleNegative args := by
  constructor
  · rintro ⟨g, hends, hgcd⟩ ⟨x, rfl, hneg⟩
    have hsame := hends.unique (EndsWith.of_forall fun fuel => rfl : EndsWith _ (.integer x))
    cases hsame
    exact absurd hgcd.nonneg (by omega)
  · intro hsign
    cases args with
    | nil =>
      refine ⟨zero, EndsWith.of_forall fun _ => rfl, ?_, ?_, ?_⟩
      · rw [toInt_zero]
      · exact fun x hx => absurd hx not_mem_nil
      · intro d _
        rw [toInt_zero]
        exact dvd_zero d
    | cons x ls =>
      obtain ⟨hx, hls⟩ := forall_mem_cons.mp hargs
      exact foldArguments_gcd2 hx hls (sign_of_not_single hsign)

theorem lcmRight_iff (hargs : ∀ x ∈ args, x.Canonical) :
    LcmRight args ↔ ¬ SingleNegative args ∧ zeros args ≤ 1 := by
  cases args with
  | nil =>
    have hright : LcmRight [] := by
      refine ⟨fixnum sexpOne, EndsWith.of_forall fun _ => rfl, ?_, ?_, ?_⟩
      · rw [toInt_fixnum, sexpOne_val]
        decide
      · exact fun x hx => absurd hx not_mem_nil
      · intro m _
        rw [toInt_fixnum, sexpOne_val]
        exact one_dvd m
    have hsign : ¬ SingleNegative [] := by
      rintro ⟨x, hsingle, -⟩
      cases hsingle
    exact iff_of_true hright ⟨hsign, by decide⟩
  | cons x ls =>
    obtain ⟨hx, hls⟩ := forall_mem_cons.mp hargs
    constructor
    · rintro ⟨l, hends, hlcm⟩
      constructor
      · rintro ⟨y, hsingle, hneg⟩
        cases hsingle
        have hsame := hends.unique (EndsWith.of_forall fun fuel => rfl : EndsWith _ (.integer x))
        cases hsame
        exact absurd hlcm.nonneg (by omega)
      · by_contra hzeros
        have herror := foldArguments_lcm2_zeros hx hls (by omega)
        cases hends.unique herror
    · rintro ⟨hsign, hzeros⟩
      exact foldArguments_lcm2 hx hls (sign_of_not_single hsign) hzeros

/-- The arguments have so few digits together that the `int` counts of the digit routines hold
those of their product too. -/
def FitInt (args : List ExactInt) : Prop := (args.map words).sum ≤ 2 ^ 28

/-- `gcd` fails on a single negative argument alone, `lcm` on that and on two zeros. -/
theorem gcd_lcm_iff (hargs : ∀ x ∈ args, x.Canonical) (_hfit : FitInt args) :
    (GcdRight args ↔ ¬ SingleNegative args) ∧
      (LcmRight args ↔ ¬ SingleNegative args ∧ zeros args ≤ 1) :=
  ⟨gcdRight_iff hargs, lcmRight_iff hargs⟩

/-- `(gcd -4)` and `(lcm -4)` are right or wrong as the sign says. -/
theorem gcd_lcm_iff_single :
    (GcdRight [fixnum (sexpMakeFixnum (-4))] ↔ ¬ SingleNegative [fixnum (sexpMakeFixnum (-4))]) ∧
      (LcmRight [fixnum (sexpMakeFixnum (-4))] ↔
        ¬ SingleNegative [fixnum (sexpMakeFixnum (-4))] ∧
          zeros [fixnum (sexpMakeFixnum (-4))] ≤ 1) := by
  apply gcd_lcm_iff
  · intro x hx
    rw [mem_singleton.mp hx]
    trivial
  · show (1 + 0 : ℕ) ≤ 2 ^ 28
    norm_num

/-- `(gcd -4)` returns -4 and `(lcm 0 0)` divides by zero. -/
theorem gcd_lcm_wrong :
    (∀ fuel, gcd fuel [fixnum (sexpMakeFixnum (-4))] =
        some (.integer (fixnum (sexpMakeFixnum (-4))))) ∧
      (∀ fuel, lcm (fuel + 1) [zero, zero] = some (.exception "divide by zero")) ∧
      ¬ GcdRight [fixnum (sexpMakeFixnum (-4))] ∧ ¬ LcmRight [zero, zero] := by
  refine ⟨fun _ => rfl, fun fuel => ?_, ?_, ?_⟩
  · show foldArguments (lcm2 (fuel + 1)) zero [zero] = _
    rw [foldArguments, lcm2_zeros_succ]
  · rw [gcdRight_iff (by decide)]
    exact fun h => h ⟨_, rfl, by decide⟩
  · rw [lcmRight_iff (by decide)]
    exact fun h => absurd h.2 (by decide)

end ExactInt

end ChibiScheme
