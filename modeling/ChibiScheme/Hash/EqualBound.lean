import ChibiScheme.Hash.Object

/-!
# `equal?` on every type of object

`sexp_equalp_bound` compares two objects of any type by their layout: the bytes in front of the
slots, the slots, and the bytes behind them.  Here it is stated for an arbitrary layout, together
with the number of turns that its loop takes over all calls and whether it stopped at a limit.
-/

namespace ChibiScheme.Equal

open Hash (Val skipSame mem_skipSame)

/-- An object: a number that has a comparison of its own, or the tag, the bytes in front of the
slots, the slots that `equal?` compares, and the bytes behind all slots. -/
inductive Obj where
  | bignum (value : Bignum)
  | flonum (bits : UInt64)
  | other (tag : ℕ) (left : List UInt8) (slots : List Val) (right : List UInt8)

/-- The objects.  How many slots there are and whether bytes follow them is a constant of the type or
is read from the bytes in front of the slots. -/
structure Memory where
  obj : ℕ → Obj
  layout : ∀ {x y tag left slots right slots' right'}, obj x = .other tag left slots right →
    obj y = .other tag left slots' right' →
    slots.length = slots'.length ∧ (right = [] → right' = [])

/-- The bound that is left or `SEXP_FALSE`, the turns of the loop so far, and whether a limit was
reached. -/
structure Outcome where
  result : Option ℤ
  calls : ℕ
  cut : Bool
deriving DecidableEq

/-- Both are pointers to objects with the same tag. -/
def sameType (mem : Memory) : Val → Val → Bool
  | .ptr x, .ptr y =>
    match mem.obj x, mem.obj y with
    | .bignum _, .bignum _ | .flonum _, .flonum _ => true
    | .other tag _ _ _, .other tag' _ _ _ => tag = tag'
    | _, _ => false
  | _, _ => false

/-- One turn of the loop: a result, or the last slots that differ with the slots in front of them,
the last ones first. -/
def equalTurn (mem : Memory) (a b : Val) (depth bound : ℤ) :
    Outcome ⊕ (Val × Val) × List (Val × Val) :=
  if a = b then .inl ⟨some bound, 1, false⟩
  else
    match a, b with
    | .ptr x, .ptr y =>
      match mem.obj x, mem.obj y with
      | .bignum m, .bignum n =>
        .inl ⟨if sexpBignumCompare m n = 0 then some bound else none, 1, false⟩
      | .flonum f, .flonum g => .inl ⟨if f = g then some bound else none, 1, false⟩
      | .other tag left slots right, .other tag' left' slots' right' =>
        if tag ≠ tag' then .inl ⟨none, 1, false⟩
        else if bound < 0 ∨ depth < 0 then .inl ⟨some bound, 1, true⟩
        else if left ≠ left' ∨ right ≠ [] ∧ right ≠ right' then .inl ⟨none, 1, false⟩
        else
          match skipSame (slots.zip slots').reverse with
          | [] => .inl ⟨some (bound - 1), 1, false⟩
          | last :: front =>
            if front ≠ [] ∧ sameType mem last.1 last.2 = false then .inl ⟨none, 1, false⟩
            else .inr (last, front)
      | _, _ => .inl ⟨none, 1, false⟩
    | _, _ => .inl ⟨none, 1, false⟩

/-- The loop over all slots but the last one. -/
def equalSlots (equal : Val → Val → ℤ → Option Outcome) : List (Val × Val) → ℤ → Option Outcome
  | [], bound => some ⟨some bound, 0, false⟩
  | slot :: slots, bound => do
    let out ← equal slot.1 slot.2 bound
    match out.result with
    | none => some out
    | some bound =>
      let rest ← equalSlots equal slots bound
      some ⟨rest.result, out.calls + rest.calls, out.cut || rest.cut⟩

/-- `sexp_equalp_bound`; there is no result if the fuel is used up first. -/
def sexpEqualpBound (mem : Memory) : ℕ → Val → Val → ℤ → ℤ → Option Outcome
  | 0, _, _, _, _ => none
  | fuel + 1, a, b, depth, bound =>
    match equalTurn mem a b depth bound with
    | .inl out => some out
    | .inr (last, front) => do
      let out ← equalSlots (fun a b bound => sexpEqualpBound mem fuel a b (depth - 1) bound)
        front.reverse (bound - 1)
      match out.result with
      | none => some { out with calls := out.calls + 1 }
      | some bound =>
        let rest ← sexpEqualpBound mem fuel last.1 last.2 depth bound
        some ⟨rest.result, out.calls + rest.calls + 1, out.cut || rest.cut⟩

/-- The call with as much fuel as it needs. -/
def equalpBound (mem : Memory) (a b : Val) (depth bound : ℤ) : Option Outcome :=
  sexpEqualpBound mem (bound.toNat + 2) a b depth bound

/-! ## Structural equality -/

/-- The data are structurally equal: a finite comparison shows it. -/
inductive SameData (mem : Memory) : Val → Val → Prop
  | refl (a : Val) : SameData mem a a
  | bignum {x y : ℕ} {m n : Bignum} (hx : mem.obj x = .bignum m) (hy : mem.obj y = .bignum n)
    (hsame : sexpBignumCompare m n = 0) : SameData mem (.ptr x) (.ptr y)
  | flonum {x y : ℕ} {f : UInt64} (hx : mem.obj x = .flonum f) (hy : mem.obj y = .flonum f) :
    SameData mem (.ptr x) (.ptr y)
  | other {x y tag : ℕ} {left right : List UInt8} {slots slots' : List Val}
    (hx : mem.obj x = .other tag left slots right) (hy : mem.obj y = .other tag left slots' right)
    (hslots : ∀ slot ∈ slots.zip slots', SameData mem slot.1 slot.2) : SameData mem (.ptr x) (.ptr y)

variable {mem : Memory} {slotMax : ℕ} {a b : Val} {depth bound : ℤ}

/-- What an outcome says about a comparison of `size` pairs that are all equal or not: the turns
are paid for by the bound, at most `slotMax` of them for each unit. -/
structure Sound (slotMax size : ℕ) (equal : Prop) (bound : ℤ) (out : Outcome) : Prop where
  bounds : ∀ r, out.result = some r → min bound (-1) ≤ r ∧ r ≤ bound
  calls : (out.calls : ℤ) ≤ size + slotMax * (bound - out.result.getD (min bound (-1)))
  unequal : out.result = none → ¬ equal
  equal : ∀ r, out.result = some r → out.cut = false → equal

theorem skipSame_sublist (slots : List (Val × Val)) : (skipSame slots).Sublist slots := by
  induction slots with
  | nil => exact .slnil
  | cons slot slots ih =>
    cases slots with
    | nil => exact .refl _
    | cons next slots =>
      unfold skipSame
      split
      · exact ih.cons slot
      · exact .refl _

theorem forall_skipSame (slots slots' : List Val) :
    (∀ slot ∈ skipSame (slots.zip slots').reverse, SameData mem slot.1 slot.2) ↔
      ∀ slot ∈ slots.zip slots', SameData mem slot.1 slot.2 := by
  constructor
  · intro h slot hslot
    obtain heq | hmem := mem_skipSame (List.mem_reverse.mpr hslot)
    · exact heq ▸ SameData.refl slot.1
    · exact h slot hmem
  · intro h slot hslot
    exact h slot (List.mem_reverse.mp ((skipSame_sublist _).subset hslot))

theorem sameData_other_iff {x y tag tag' : ℕ} {left right left' right' : List UInt8}
    {slots slots' : List Val} (hne : x ≠ y) (hx : mem.obj x = .other tag left slots right)
    (hy : mem.obj y = .other tag' left' slots' right') : SameData mem (.ptr x) (.ptr y) ↔
      (tag = tag' ∧ left = left' ∧ right = right') ∧
        ∀ slot ∈ skipSame (slots.zip slots').reverse, SameData mem slot.1 slot.2 := by
  rw [forall_skipSame]
  constructor
  · intro h
    cases h with
    | refl => exact absurd rfl hne
    | bignum hx' => exact absurd (hx.symm.trans hx') (by simp)
    | flonum hx' => exact absurd (hx.symm.trans hx') (by simp)
    | other hx' hy' hslots =>
      cases hx.symm.trans hx'
      cases hy.symm.trans hy'
      exact ⟨⟨rfl, rfl, rfl⟩, hslots⟩
  · rintro ⟨⟨rfl, rfl, rfl⟩, hslots⟩
    exact .other hx hy hslots

theorem SameData.sameType (h : SameData mem a b) (hne : a ≠ b) : sameType mem a b := by
  cases h with
  | refl => exact absurd rfl hne
  | bignum hx hy => simp [Equal.sameType, hx, hy]
  | flonum hx hy => simp [Equal.sameType, hx, hy]
  | other hx hy => simp [Equal.sameType, hx, hy]

theorem ne_of_skipSame {slots : List (Val × Val)} {last : Val × Val} {front : List (Val × Val)}
    (hskip : skipSame slots = last :: front) (hfront : front ≠ []) : last.1 ≠ last.2 := by
  induction slots with
  | nil => cases hskip
  | cons slot slots ih =>
    cases slots with
    | nil =>
      cases hskip
      exact absurd rfl hfront
    | cons next slots =>
      unfold skipSame at hskip
      split at hskip
      · exact ih hskip
      · rename_i hne
        cases hskip
        exact hne

theorem Sound.of_result {equal : Prop} {r : ℤ} {cut : Bool} (hr : min bound (-1) ≤ r ∧ r ≤ bound)
    (hequal : cut = false → equal) : Sound slotMax 1 equal bound ⟨some r, 1, cut⟩ where
  bounds r' hr' := by
    cases hr'
    exact hr
  calls := by
    have : 0 ≤ (slotMax : ℤ) * (bound - r) :=
      mul_nonneg (Int.natCast_nonneg slotMax) (sub_nonneg.mpr hr.2)
    simpa using this
  unequal h := by cases h
  equal _ _ := hequal

theorem Sound.of_false {equal : Prop} (hequal : ¬ equal) :
    Sound slotMax 1 equal bound ⟨none, 1, false⟩ where
  bounds _ h := by cases h
  calls := by
    have : 0 ≤ (slotMax : ℤ) * (bound - min bound (-1)) :=
      mul_nonneg (Int.natCast_nonneg slotMax) (sub_nonneg.mpr (min_le_left _ _))
    simpa using this
  unequal _ := hequal
  equal _ h := by cases h

theorem Sound.of_test {test equal : Prop} [Decidable test] (hiff : equal ↔ test) :
    Sound slotMax 1 equal bound ⟨if test then some bound else none, 1, false⟩ := by
  by_cases h : test
  · rw [if_pos h]
    exact .of_result ⟨min_le_left _ _, le_refl _⟩ fun _ => hiff.mpr h
  · rw [if_neg h]
    exact .of_false fun hequal => h (hiff.mp hequal)

theorem Sound.seq {size size' : ℕ} {equal equal' : Prop} {out out' : Outcome} {r : ℤ}
    (h : Sound slotMax size equal bound out) (hr : out.result = some r)
    (h' : Sound slotMax size' equal' r out') :
    Sound slotMax (size + size') (equal ∧ equal') bound
      ⟨out'.result, out.calls + out'.calls, out.cut || out'.cut⟩ := by
  have hbounds := h.bounds r hr
  have hmin : min bound (-1) ≤ min r (-1) := le_min hbounds.1 (min_le_right _ _)
  constructor
  · intro r' hr'
    have hbounds' := h'.bounds r' hr'
    exact ⟨hmin.trans hbounds'.1, hbounds'.2.trans hbounds.2⟩
  · have hleft : out'.result.getD (min bound (-1)) ≤ out'.result.getD (min r (-1)) := by
      cases out'.result with
      | none => exact hmin
      | some _ => exact le_refl _
    have hcalls := h.calls
    rw [hr, Option.getD_some] at hcalls
    calc ((out.calls + out'.calls : ℕ) : ℤ) = out.calls + out'.calls := Nat.cast_add _ _
      _ ≤ (size + slotMax * (bound - r)) +
          (size' + slotMax * (r - out'.result.getD (min r (-1)))) := add_le_add hcalls h'.calls
      _ = (size + size' : ℕ) + slotMax * (bound - out'.result.getD (min r (-1))) := by
        push_cast
        ring
      _ ≤ (size + size' : ℕ) + slotMax * (bound - out'.result.getD (min bound (-1))) := by
        gcongr
  · intro hnone heq
    exact h'.unequal hnone heq.2
  · intro r' hr' hcut
    rw [Bool.or_eq_false_iff] at hcut
    exact ⟨h.equal r hr hcut.1, h'.equal r' hr' hcut.2⟩

theorem Sound.stop {size : ℕ} {equal equal' : Prop} {out : Outcome}
    (h : Sound slotMax size equal bound out) (hr : out.result = none) (size' : ℕ) :
    Sound slotMax (size + size') (equal ∧ equal') bound out where
  bounds := h.bounds
  calls := by
    have := h.calls
    push_cast
    omega
  unequal _ heq := h.unequal hr heq.1
  equal _ hr' := by
    rw [hr] at hr'
    cases hr'

theorem equalSlots_spec {equal : Val → Val → ℤ → Option Outcome}
    (hequal : ∀ a b r, r ≤ bound →
      ∃ out, equal a b r = some out ∧ Sound slotMax 1 (SameData mem a b) r out) :
    ∀ (slots : List (Val × Val)) (r : ℤ), r ≤ bound → ∃ out, equalSlots equal slots r = some out ∧
      Sound slotMax slots.length (∀ slot ∈ slots, SameData mem slot.1 slot.2) r out := by
  intro slots
  induction slots with
  | nil =>
    intro r hr
    refine ⟨⟨some r, 0, false⟩, rfl, ⟨?_, ?_, ?_, ?_⟩⟩
    · intro r' hr'
      cases hr'
      exact ⟨min_le_left _ _, le_refl _⟩
    · simp
    · intro hnone
      cases hnone
    · intro _ _ _ slot hslot
      cases hslot
  | cons slot slots ih =>
    intro r hr
    obtain ⟨out, hrun, hsound⟩ := hequal slot.1 slot.2 r hr
    rw [equalSlots, hrun, List.forall_mem_cons, List.length_cons, Nat.add_comm]
    cases hresult : out.result with
    | none => exact ⟨out, by simp [hresult], hsound.stop hresult _⟩
    | some r' =>
      obtain ⟨rest, hrest, hsound'⟩ := ih r' ((hsound.bounds r' hresult).2.trans hr)
      exact ⟨_, by simp [hresult, hrest], hsound.seq hresult hsound'⟩

/-! ## The comparison -/

/-- No record has more slots. -/
def SlotsBounded (mem : Memory) (slotMax : ℕ) : Prop :=
  ∀ x tag left slots right, mem.obj x = .other tag left slots right → slots.length ≤ slotMax

/-- What one turn of the loop finds out. -/
def TurnSound (mem : Memory) (slotMax : ℕ) (a b : Val) (bound : ℤ) :
    Outcome ⊕ (Val × Val) × List (Val × Val) → Prop
  | .inl out => Sound slotMax 1 (SameData mem a b) bound out
  | .inr (last, front) => 0 ≤ bound ∧ front.length + 1 ≤ slotMax ∧
      (SameData mem a b ↔
        (∀ slot ∈ front.reverse, SameData mem slot.1 slot.2) ∧ SameData mem last.1 last.2)

theorem turnSound_other (hslots : SlotsBounded mem slotMax) {x y tag tag' : ℕ}
    {left right left' right' : List UInt8} {slots slots' : List Val} (hne : x ≠ y)
    (hx : mem.obj x = .other tag left slots right)
    (hy : mem.obj y = .other tag' left' slots' right') :
    TurnSound mem slotMax (.ptr x) (.ptr y) bound
      (equalTurn mem (.ptr x) (.ptr y) depth bound) := by
  have hiff := sameData_other_iff hne hx hy
  have hne' : Val.ptr x ≠ .ptr y := fun h => hne (Val.ptr.inj h)
  simp only [equalTurn, if_neg hne', hx, hy]
  by_cases htag : tag = tag'
  case neg =>
    rw [if_pos htag]
    exact .of_false fun h => htag (hiff.mp h).1.1
  rw [if_neg (not_not.mpr htag)]
  by_cases hlimit : bound < 0 ∨ depth < 0
  case pos =>
    rw [if_pos hlimit]
    exact .of_result ⟨min_le_left _ _, le_refl _⟩ fun h => by cases h
  rw [if_neg hlimit]
  push Not at hlimit
  by_cases hbytes : left ≠ left' ∨ right ≠ [] ∧ right ≠ right'
  case pos =>
    rw [if_pos hbytes]
    refine .of_false fun h => ?_
    obtain ⟨-, hleft, hright⟩ := (hiff.mp h).1
    obtain hbytes | hbytes := hbytes
    · exact hbytes hleft
    · exact hbytes.2 hright
  rw [if_neg hbytes]
  push Not at hbytes
  obtain ⟨rfl, hright⟩ := hbytes
  subst htag
  have hright : right = right' := by
    by_cases hnil : right = []
    · rw [hnil, (mem.layout hx hy).2 hnil]
    · exact hright hnil
  have hiff' := hiff.trans (and_iff_right ⟨rfl, rfl, hright⟩)
  have hlength : (skipSame (slots.zip slots').reverse).length ≤ slotMax := by
    calc (skipSame (slots.zip slots').reverse).length
        ≤ (slots.zip slots').reverse.length := (skipSame_sublist _).length_le
      _ ≤ slots.length := by
        rw [List.length_reverse, List.length_zip]
        exact min_le_left _ _
      _ ≤ slotMax := hslots x _ _ _ _ hx
  cases hskip : skipSame (slots.zip slots').reverse with
  | nil =>
    rw [hskip] at hiff'
    refine .of_result ⟨?_, by omega⟩ fun _ => hiff'.mpr (List.forall_mem_nil _)
    omega
  | cons last front =>
    rw [hskip, List.forall_mem_cons] at hiff'
    rw [hskip] at hlength
    by_cases htype : front ≠ [] ∧ sameType mem last.1 last.2 = false
    · simp only [if_pos htype]
      refine .of_false fun h => ?_
      have hsame := (hiff'.mp h).1.sameType (ne_of_skipSame hskip htype.1)
      rw [htype.2] at hsame
      cases hsame
    · simp only [if_neg htype]
      refine ⟨hlimit.1, hlength, ?_⟩
      rw [hiff', and_comm]
      simp only [List.mem_reverse]

theorem turnSound_equalTurn (hslots : SlotsBounded mem slotMax) (a b : Val) (depth bound : ℤ) :
    TurnSound mem slotMax a b bound (equalTurn mem a b depth bound) := by
  by_cases heq : a = b
  · unfold equalTurn
    rw [if_pos heq]
    exact .of_result ⟨min_le_left _ _, le_refl _⟩ fun _ => heq ▸ .refl a
  cases a with
  | imm word =>
    simp only [equalTurn, if_neg heq]
    refine .of_false fun h => ?_
    cases h
    exact heq rfl
  | ptr x =>
    cases b with
    | imm word =>
      simp only [equalTurn, if_neg heq]
      exact .of_false fun h => by cases h
    | ptr y =>
      have hne : x ≠ y := fun h => heq (congrArg Val.ptr h)
      cases hx : mem.obj x <;> cases hy : mem.obj y
      case other.other => exact turnSound_other hslots hne hx hy
      all_goals simp only [equalTurn, if_neg heq, hx, hy]
      case bignum.bignum m n =>
        refine .of_test ⟨fun h => ?_, .bignum hx hy⟩
        cases h with
        | refl => exact absurd rfl heq
        | bignum hx' hy' hsame =>
          cases hx.symm.trans hx'
          cases hy.symm.trans hy'
          exact hsame
        | flonum hx' => cases hx.symm.trans hx'
        | other hx' => cases hx.symm.trans hx'
      case flonum.flonum f g =>
        refine .of_test ⟨fun h => ?_, fun h => .flonum hx (h ▸ hy)⟩
        cases h with
        | refl => exact absurd rfl heq
        | bignum hx' => cases hx.symm.trans hx'
        | flonum hx' hy' =>
          cases hx.symm.trans hx'
          cases hy.symm.trans hy'
          rfl
        | other hx' => cases hx.symm.trans hx'
      -- The tags of the other objects differ.
      all_goals
        refine .of_false fun h => ?_
        have hsame := h.sameType heq
        simp only [sameType, hx, hy, Bool.false_eq_true] at hsame

theorem sexpEqualpBound_sound (hslots : SlotsBounded mem slotMax) (fuel : ℕ) :
    ∀ (a b : Val) (depth bound : ℤ), 0 < fuel → bound + 2 ≤ fuel →
      ∃ out, sexpEqualpBound mem fuel a b depth bound = some out ∧
        Sound slotMax 1 (SameData mem a b) bound out := by
  induction fuel with
  | zero =>
    intro _ _ _ _ hfuel
    exact absurd hfuel (lt_irrefl 0)
  | succ fuel ih =>
    intro a b depth bound _ hfuel
    have hturn := turnSound_equalTurn hslots a b depth bound
    rw [sexpEqualpBound]
    cases hcase : equalTurn mem a b depth bound with
    | inl out =>
      rw [hcase] at hturn
      exact ⟨out, rfl, hturn⟩
    | inr pairs =>
      obtain ⟨last, front⟩ := pairs
      rw [hcase] at hturn
      obtain ⟨hbound, hlength, hiff⟩ := hturn
      push_cast at hfuel
      -- Every call has a smaller bound and the fuel that is left.
      have hcall : ∀ a b depth r, r ≤ bound - 1 →
          ∃ out, sexpEqualpBound mem fuel a b depth r = some out ∧
            Sound slotMax 1 (SameData mem a b) r out := by
        intro a b depth r hr
        exact ih a b depth r (by omega) (by omega)
      obtain ⟨out, hrun, hsound⟩ := equalSlots_spec (fun a b r => hcall a b (depth - 1) r)
        front.reverse (bound - 1) (le_refl _)
      rw [List.length_reverse] at hsound
      have hpaid {out : Outcome} (h : Sound slotMax (front.length + 1)
          ((∀ slot ∈ front.reverse, SameData mem slot.1 slot.2) ∧ SameData mem last.1 last.2)
          (bound - 1) out) :
          Sound slotMax 1 (SameData mem a b) bound { out with calls := out.calls + 1 } := by
        have hmin : min (bound - 1) (-1) = min bound (-1) := by omega
        constructor
        · intro r hr
          have := h.bounds r hr
          omega
        · have hcalls := h.calls
          rw [hmin] at hcalls
          have hsize : ((front.length + 1 : ℕ) : ℤ) ≤ slotMax := Int.ofNat_le.mpr hlength
          calc ((out.calls + 1 : ℕ) : ℤ) = out.calls + 1 := Nat.cast_succ _
            _ ≤ slotMax + slotMax * (bound - 1 - out.result.getD (min bound (-1))) + 1 := by
              omega
            _ = (1 : ℕ) + slotMax * (bound - out.result.getD (min bound (-1))) := by
              push_cast
              ring
        · intro hnone heq
          exact h.unequal hnone (hiff.mp heq)
        · intro r hr hcut
          exact hiff.mpr (h.equal r hr hcut)
      simp only [hrun, Option.bind_eq_bind, Option.bind_some]
      cases hresult : out.result with
      | none => exact ⟨{ out with calls := out.calls + 1 }, by simp [hresult],
          hpaid (hsound.stop hresult 1)⟩
      | some r =>
        obtain ⟨rest, hrest, hsound'⟩ :=
          hcall last.1 last.2 depth r (hsound.bounds r hresult).2
        exact ⟨_, by simp [hrest], hpaid (hsound.seq hresult hsound')⟩

/-- `sexp_equalp_bound` returns after a number of turns that the bound limits, however the objects
point to each other.  Unless it has reached a limit it tells whether the data are the same. -/
theorem equalpBound_spec (mem : Memory) (slotMax : ℕ) (hslots : SlotsBounded mem slotMax)
    (a b : Val) (depth bound : ℤ) :
    ∃ out, equalpBound mem a b depth bound = some out ∧
      out.calls ≤ 1 + slotMax * (bound + 1).toNat ∧
      (out.result = none → ¬ SameData mem a b) ∧
      (out.cut = false → (out.result.isSome ↔ SameData mem a b)) := by
  obtain ⟨out, hrun, hsound⟩ := sexpEqualpBound_sound hslots (bound.toNat + 2) a b depth bound
    (by omega) (by push_cast; omega)
  refine ⟨out, hrun, ?_, hsound.unequal, ?_⟩
  · have hleft : bound - out.result.getD (min bound (-1)) ≤ (bound + 1).toNat := by
      cases hresult : out.result with
      | none =>
        rw [Option.getD_none]
        omega
      | some r =>
        have := hsound.bounds r hresult
        rw [Option.getD_some]
        omega
    have hcalls : (out.calls : ℤ) ≤ (1 + slotMax * (bound + 1).toNat : ℕ) := by
      calc (out.calls : ℤ) ≤ (1 : ℕ) + slotMax * (bound - out.result.getD (min bound (-1))) :=
            hsound.calls
        _ ≤ (1 + slotMax * (bound + 1).toNat : ℕ) := by
          push_cast
          gcongr
    exact Int.ofNat_le.mp hcalls
  · intro hcut
    cases hresult : out.result with
    | none => simpa using hsound.unequal hresult
    | some r => simpa using hsound.equal r hresult hcut

/-- The pairs of `((1) 7)` and `((2) 7)`. -/
def twoLists : Memory where
  obj x := .other 6 [] (match x with
    | 0 => [.ptr 2, .ptr 4]
    | 1 => [.ptr 3, .ptr 5]
    | 2 => [.imm 3, .imm 574]
    | 3 => [.imm 5, .imm 574]
    | _ => [.imm 15, .imm 574]) []
  layout hx hy := by
    cases hx
    cases hy
    refine ⟨?_, id⟩
    split <;> split <;> rfl

theorem slotsBounded_twoLists : SlotsBounded twoLists 2 := by
  intro x tag left slots right hx
  cases hx
  split <;> decide

/-- Two equal lists. -/
theorem equalpBound_spec_twoLists : ∃ out, equalpBound twoLists (.ptr 0) (.ptr 1) 1 100 = some out ∧
    out.calls ≤ 1 + 2 * (100 + 1 : ℤ).toNat ∧
    (out.result = none → ¬ SameData twoLists (.ptr 0) (.ptr 1)) ∧
    (out.cut = false → (out.result.isSome ↔ SameData twoLists (.ptr 0) (.ptr 1))) :=
  equalpBound_spec twoLists 2 slotsBounded_twoLists (.ptr 0) (.ptr 1) 1 100

/-- The lists differ in an element, but the depth is used up before the bound. -/
theorem equalpBound_twoLists : ¬ ∀ (mem : Memory) (a b : Val) (depth bound : ℤ) (out : Outcome)
    (r : ℤ), equalpBound mem a b depth bound = some out → out.result = some r → 0 ≤ r →
    SameData mem a b := by
  intro h
  have hsame := h twoLists (.ptr 0) (.ptr 1) 0 100 ⟨some 98, 4, true⟩ 98 (by decide) rfl (by decide)
  obtain ⟨out, hrun, hsound⟩ := sexpEqualpBound_sound slotsBounded_twoLists 102 (.ptr 0) (.ptr 1)
    1 100 (by decide) (by decide)
  have hout : out.result = none := by
    have hfalse : (sexpEqualpBound twoLists 102 (.ptr 0) (.ptr 1) 1 100).bind (·.result) = none := by
      decide
    rw [hrun] at hfalse
    exact hfalse
  exact hsound.unequal hout hsame

end ChibiScheme.Equal
