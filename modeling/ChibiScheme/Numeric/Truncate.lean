import ChibiScheme.Numeric.Rational

/-!
# `sexp_quotient` and `sexp_remainder` on exact integers

Both tables on canonical integers, read together: whether the quotient and the
remainder of one pair of operands fit each other.  They do except for the least
fixnum divided by `2^62`, the one bignum that is not larger than every fixnum.
-/

namespace ChibiScheme

open Stateful ExactInt Euclid

variable {F : Type} {h h' : Heap F} {v a b : Val} {x y : ExactInt} {m n : ℤ}

/-- The two calls divide `m` by `n`: with quotient `q` and remainder `r`, both
canonical, `m = q * n + r` where `r` is smaller than `n` and has the sign of `m`. -/
def Divides (flo : FlonumOps F) (depth : ℕ) (h : Heap F) (a b : Val) (m n : ℤ) : Prop :=
  ∃ q r : ℤ,
    Returns ((arith flo depth).quotient a b) h (fun v h' => RepInt h' v q) ∧
    Returns ((arith flo depth).remainder a b) h (fun v h' => RepInt h' v r) ∧
    m = q * n + r ∧ |r| < |n| ∧ (r = 0 ∨ r.sign = m.sign)

private theorem minByItsMagnitude_iff (hx : x.Canonical) (hy : y.Canonical) :
    MinByItsMagnitude x y ↔ x.toInt = -2 ^ 62 ∧ y.toInt = 2 ^ 62 := by
  cases x with
  | fixnum k =>
    cases y with
    | fixnum l =>
      have hbounds := l.bounds
      exact iff_of_false (fun hmin => hmin) fun hvalues => by
        rw [toInt_fixnum, toInt_fixnum] at hvalues
        omega
    | bignum bn =>
      have hne := ExactInt.Canonical.toInt_ne_min hy
      have habs := bn.natAbs_toInt
      constructor
      · rintro ⟨hk, hmagnitude⟩
        rw [toInt_fixnum, toInt_bignum]
        omega
      · rintro ⟨hk, hvalue⟩
        rw [toInt_bignum] at hvalue
        exact ⟨hk, by omega⟩
  | bignum bn =>
    have hne := ExactInt.Canonical.toInt_ne_min hx
    exact iff_of_false (fun hmin => hmin) fun hvalues => hne hvalues.1

private theorem tmod_sign (m n : ℤ) : m.tmod n = 0 ∨ (m.tmod n).sign = m.sign := by
  rcases lt_trichotomy m 0 with hneg | rfl | hpos
  · have hnonneg := Int.tmod_nonneg n (show 0 ≤ -m by omega)
    rw [Int.neg_tmod] at hnonneg
    by_cases hzero : m.tmod n = 0
    · exact .inl hzero
    · rw [Int.sign_eq_neg_one_of_neg hneg, Int.sign_eq_neg_one_of_neg (by omega)]
      exact .inr rfl
  · exact .inl (Int.zero_tmod n)
  · have hnonneg := Int.tmod_nonneg n hpos.le
    by_cases hzero : m.tmod n = 0
    · exact .inl hzero
    · rw [Int.sign_eq_one_of_pos hpos, Int.sign_eq_one_of_pos (by omega)]
      exact .inr rfl

section Tables

variable (flo : FlonumOps F) (depth : ℕ)

private theorem divides_of_not_min (hx : h.integer? a = some x) (hxc : x.Canonical)
    (hy : h.integer? b = some y) (hyc : y.Canonical) (hne : y.toInt ≠ 0)
    (hmin : ¬ MinByItsMagnitude x y) :
    Divides flo (depth + 1) h a b x.toInt y.toInt := by
  obtain ⟨q, hquotient, hq, hqShape⟩ := quotientInteger_spec hne hyc.wide hmin
  obtain ⟨r, hremainder, hr, hrc⟩ := remainderInteger_spec hne hyc.wide hmin
  have hqc : q.Canonical := by
    rcases hqShape with ⟨-, rfl⟩ | hcanonical
    · exact hxc
    · exact hcanonical
  refine ⟨q.toInt, r.toInt, ?_, ?_, ?_, ?_, ?_⟩
  · refine (quotient_run flo depth hquotient hx hy).mono ?_
    exact fun v h' hv => ⟨q, hv.2.1, hqc, rfl⟩
  · obtain ⟨v, h', hrun, -, hv, -⟩ := allocInt_run r h
    refine ⟨v, h', ?_, r, hv, hrc, rfl⟩
    have htable := remainderTable_integer flo (arith flo depth) hx hy
    rw [hremainder] at htable
    exact htable.trans hrun
  · rw [hq, hr, mul_comm]
    exact (Int.mul_tdiv_add_tmod _ _).symm
  · rw [hr, Int.abs_eq_natAbs, Int.abs_eq_natAbs]
    exact_mod_cast natAbs_tmod_lt x.toInt hne
  · rw [hr]
    exact tmod_sign _ _

/-- Quotient and remainder fit each other for all operands but `-2^62` and `2^62`, as far as
the `int` counts of the division reach. -/
theorem sexpQuotient_sexpRemainder_iff (ha : RepInt h a m) (hb : RepInt h b n) (hne : n ≠ 0)
    (_hfits : h.FitsInt) :
    Divides flo (depth + 3) h a b m n ↔ ¬ (m = -2 ^ 62 ∧ n = 2 ^ 62) := by
  obtain ⟨x, hx, hxc, rfl⟩ := ha
  obtain ⟨y, hy, hyc, rfl⟩ := hb
  rw [← minByItsMagnitude_iff hxc hyc]
  constructor
  · rintro ⟨q, r, -, ⟨v, h', hrun, z, hz, -, rfl⟩, -, hlt, -⟩ hmin
    -- the remainder that comes back is the dividend
    have htable := remainderTable_integer flo (arith flo (depth + 2)) hx hy
    rw [(divideInteger_min hmin).2] at htable
    obtain ⟨w, h₁, hrun₁, -, hw, -⟩ := allocInt_run x h
    have hsame := Option.some.inj (hrun.symm.trans (htable.trans hrun₁))
    obtain ⟨rfl, rfl⟩ := Prod.mk.inj hsame
    obtain rfl := Option.some.inj (hz.symm.trans hw)
    obtain ⟨hxmin, hymin⟩ := (minByItsMagnitude_iff hxc hyc).mp hmin
    rw [hxmin, hymin] at hlt
    exact absurd hlt (by decide)
  · intro hmin
    exact divides_of_not_min flo (depth + 2) hx hxc hy hyc hne hmin

end Tables

/-- Minus seven by two. -/
theorem sexpQuotient_sexpRemainder_seven :
    Divides oneFlonum 3 [] (.fixnum (sexpMakeFixnum (-7))) (.fixnum (sexpMakeFixnum 2)) (-7) 2 := by
  have hseven : RepInt ([] : Heap Unit) (.fixnum (sexpMakeFixnum (-7))) (-7) :=
    ⟨_, rfl, trivial, by decide⟩
  have htwo : RepInt ([] : Heap Unit) (.fixnum (sexpMakeFixnum 2)) 2 :=
    ⟨_, rfl, trivial, by decide⟩
  have hfits : Heap.FitsInt ([] : Heap Unit) := fun bn hbn => absurd hbn List.not_mem_nil
  exact (sexpQuotient_sexpRemainder_iff oneFlonum 0 hseven htwo (by decide) hfits).mpr (by decide)

/-- The least fixnum divided by `2^62`: the quotient is zero and the remainder the
dividend. -/
theorem sexpQuotient_sexpRemainder_min :
    ∃ h : Heap Unit, RepInt h (.fixnum (sexpMakeFixnum sexpMinFixnum)) (-2 ^ 62) ∧
      RepInt h (.ptr 0) (2 ^ 62) ∧
      Returns ((arith oneFlonum 3).remainder (.fixnum (sexpMakeFixnum sexpMinFixnum)) (.ptr 0)) h
        (fun r _ => r = .fixnum (sexpMakeFixnum sexpMinFixnum)) ∧
      ¬ Divides oneFlonum 3 h (.fixnum (sexpMakeFixnum sexpMinFixnum)) (.ptr 0) (-2 ^ 62)
        (2 ^ 62) := by
  have hmin : RepInt [(.bignum ⟨.pos, [4611686018427387904]⟩ : Obj Unit)]
      (.fixnum (sexpMakeFixnum sexpMinFixnum)) (-2 ^ 62) := ⟨_, rfl, trivial, by decide⟩
  have hbig : RepInt [(.bignum ⟨.pos, [4611686018427387904]⟩ : Obj Unit)] (.ptr 0) (2 ^ 62) :=
    ⟨_, rfl, (by decide : ¬ InFixnumRange (Bignum.toInt ⟨.pos, [4611686018427387904]⟩)), by decide⟩
  refine ⟨[.bignum ⟨.pos, [4611686018427387904]⟩], hmin, hbig, ⟨_, _, rfl, rfl⟩, ?_⟩
  rintro ⟨q, r, -, ⟨v, h', hrun, z, hz, -, rfl⟩, -, hlt, -⟩
  obtain ⟨rfl, rfl⟩ := Prod.mk.inj (Option.some.inj hrun)
  obtain rfl := Option.some.inj hz
  exact absurd hlt (by decide)

end ChibiScheme
