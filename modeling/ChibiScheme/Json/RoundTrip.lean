import ChibiScheme.Json.ReadBack

/-!
# Round trip of JSON values

The reader takes `b`, `f` and `r` behind a backslash for themselves, and it computes numbers with
doubles.  So a value comes back only if no string has a backspace, a form feed or a carriage return
and each number is a double, and it does if besides none of the sums of a number is rounded.
-/

namespace ChibiScheme.Json

open List

/-! ## Numbers -/

/-- The decimal digits of the number add up to it in double arithmetic. -/
def DoubleExact (n : ℕ) : Prop :=
  readDigits (numeralText hexDigit 10 n) = n

/-- The number has at most 53 significant binary digits. -/
def IsDouble (n : ℕ) : Prop := Rounding.Representable 53 n

/-- For each number `p` made of leading decimal digits of `n`: with its last digit set to 0, with 48 added
and as it is, it has at most 53 significant binary digits. -/
def NoRounding (n : ℕ) : Prop :=
  ∀ k, let p := n / 10 ^ k
    IsDouble (p - p % 10) ∧ IsDouble (p + 48) ∧ IsDouble p

theorem isDouble_of_le {n : ℕ} (hle : n ≤ 2 ^ 53) : IsDouble n := by
  have hdigits : 53 ≠ 0 := by omega
  obtain rfl | hlt := hle.eq_or_lt
  · exact Rounding.representable_two_pow hdigits 53
  · exact Rounding.representable_of_lt hdigits hlt

/-- Numbers that are far enough below `2 ^ 53`. -/
theorem noRounding_of_le {n : ℕ} (hle : n + 48 ≤ 2 ^ 53) : NoRounding n := by
  intro k
  have hprefix : n / 10 ^ k ≤ n := Nat.div_le_self n _
  exact ⟨isDouble_of_le (by omega), isDouble_of_le (by omega), isDouble_of_le (by omega)⟩

theorem toNat_hexDigit : ∀ d < 10, (hexDigit d).toNat = 48 + d := by
  decide

theorem readDigits_step {n : ℕ} (hpos : 0 < n) :
    readDigits (digitText hexDigit 10 n) =
      toDouble (toDouble (toDouble (readDigits (digitText hexDigit 10 (n / 10)) * 10) +
        (48 + n % 10)) - 48) := by
  rw [digitText_step (by omega) hpos, ← toNat_hexDigit (n % 10) (Nat.mod_lt n (by omega)),
    readDigits, foldl_append, foldl_cons, foldl_nil, readDigits]

/-- Each prefix is computed exactly. -/
theorem readDigits_of_noRounding (n : ℕ) (hexact : NoRounding n) :
    readDigits (digitText hexDigit 10 n) = n := by
  induction n using Nat.strongRecOn with
  | ind n ih =>
    obtain rfl | hpos := Nat.eq_zero_or_pos n
    · rw [digitText_zero]
      rfl
    · have hprefix : NoRounding (n / 10) := fun k => by
        have hk := hexact (k + 1)
        rwa [Nat.pow_succ', ← Nat.div_div_eq_div_mul] at hk
      have hstep := hexact 0
      rw [Nat.pow_zero, Nat.div_one] at hstep
      obtain ⟨htens, hshifted, hwhole⟩ := hstep
      have htens' : n / 10 * 10 = n - n % 10 := by omega
      have hshifted' : n - n % 10 + (48 + n % 10) = n + 48 := by omega
      rw [readDigits_step hpos, ih (n / 10) (by omega) hprefix, htens']
      unfold toDouble
      rw [htens.round_eq, hshifted', hshifted.round_eq, Nat.add_sub_cancel, hwhole.round_eq]

theorem doubleExact_of_noRounding {n : ℕ} (hexact : NoRounding n) : DoubleExact n := by
  unfold DoubleExact
  rw [numeralText_eq]
  split
  · rename_i hzero
    rw [hzero]
    rfl
  · exact readDigits_of_noRounding n hexact

theorem isDouble_of_doubleExact {n : ℕ} (hexact : DoubleExact n) : IsDouble n := by
  unfold DoubleExact at hexact
  obtain rfl | hpos := Nat.eq_zero_or_pos n
  · exact Nat.dvd_zero _
  · rw [numeralText_eq, if_neg hpos.ne', readDigits_step hpos] at hexact
    rw [← hexact]
    exact Rounding.representable_round (by omega) _

/-! ## The condition -/

namespace JsonValue

variable (exact : ℕ → Prop)

mutual

/-- Strings without lost characters, and numbers with a property. -/
def Safe : JsonValue → Prop
  | boolean _ => True
  | null => True
  | fixnum n => exact n.val.natAbs
  | string cs => ∀ c ∈ cs, ¬ IsLost c
  | vector elems => SafeElems elems
  | object members => SafeMembers members

/-- Each element is read back. -/
def SafeElems : List JsonValue → Prop
  | [] => True
  | elem :: rest => elem.Safe ∧ SafeElems rest

/-- Each member is read back. -/
def SafeMembers : List (List Char × JsonValue) → Prop
  | [] => True
  | (key, val) :: rest => (∀ c ∈ key, ¬ IsLost c) ∧ val.Safe ∧ SafeMembers rest

end

variable {exact} {exact' : ℕ → Prop}

mutual

theorem Safe.imp (himp : ∀ n, exact n → exact' n) : ∀ j : JsonValue, j.Safe exact → j.Safe exact'
  | boolean _, _ => trivial
  | null, _ => trivial
  | fixnum _, hsafe => himp _ hsafe
  | string _, hsafe => hsafe
  | vector elems, hsafe => SafeElems.imp himp elems hsafe
  | object members, hsafe => SafeMembers.imp himp members hsafe

theorem SafeElems.imp (himp : ∀ n, exact n → exact' n) :
    ∀ elems, SafeElems exact elems → SafeElems exact' elems
  | [], _ => trivial
  | elem :: rest, hsafe => ⟨Safe.imp himp elem hsafe.1, SafeElems.imp himp rest hsafe.2⟩

theorem SafeMembers.imp (himp : ∀ n, exact n → exact' n) :
    ∀ members, SafeMembers exact members → SafeMembers exact' members
  | [], _ => trivial
  | (_, val) :: rest, hsafe =>
    ⟨hsafe.1, Safe.imp himp val hsafe.2.1, SafeMembers.imp himp rest hsafe.2.2⟩

end

end JsonValue

/-! ## What comes back -/

theorem toDouble_max : toDouble sexpMaxFixnum.toNat = 2 ^ 62 := by
  decide

theorem datum_numberText (n : Fixnum) :
    (numberText n.val).datum = .fixnum n ↔ DoubleExact n.val.natAbs := by
  have hbounds := n.bounds
  have hsign : (numberText n.val).sign = [byte '-'] ↔ n.val < 0 := by
    unfold numberText
    split
    · exact ⟨fun _ => ‹_›, fun _ => rfl⟩
    · exact ⟨fun hnil => absurd hnil (cons_ne_nil _ _).symm, fun hneg => absurd hneg ‹_›⟩
  unfold NumberText.datum DoubleExact
  simp only [numberText, Option.isSome_none, Bool.false_eq_true, false_or, toDouble_max]
  generalize readDigits (numeralText hexDigit 10 n.val.natAbs) = res
  by_cases hlarge : res > 2 ^ 62
  · rw [if_pos hlarge]
    refine ⟨fun heq => absurd heq (by simp), fun heq => ?_⟩
    omega
  · rw [if_neg hlarge]
    change Datum.fixnum (sexpMakeFixnum (if (numberText n.val).sign = _ then _ else _)) = _ ↔ _
    simp only [hsign, Datum.fixnum.injEq, Fixnum.ext_iff]
    by_cases hneg : n.val < 0
    · rw [if_pos hneg, sexpMakeFixnum_val ((inFixnumRange_iff _).mpr (by omega))]
      omega
    · rw [if_neg hneg]
      by_cases hmax : res = 2 ^ 62
      · -- the conversion of `2^62` overflows
        have hover : (sexpMakeFixnum ((res : ℕ) : ℤ)).val = -2 ^ 62 := by
          rw [hmax]
          decide
        rw [hover]
        omega
      · rw [sexpMakeFixnum_val ((inFixnumRange_iff _).mpr (by omega))]
        omega

theorem encodeChar_readChar (c : Char) : encodeChar (readChar c) = encodeChar c ↔ ¬ IsLost c := by
  by_cases hlost : IsLost c
  · obtain ⟨hread, hencode⟩ := encodeChar_lost hlost
    refine ⟨fun heq => ?_, fun hkept => absurd hlost hkept⟩
    unfold IsLost at hlost
    rw [hencode] at heq
    obtain hread | hread | hread := hread
    all_goals
      rw [hread] at heq
      obtain hc | hc | hc := hlost
      all_goals
        rw [hc] at heq
        exact absurd heq (by decide)
  · rw [readChar_eq hlost]
    exact ⟨fun _ => hlost, fun _ => rfl⟩

theorem encodeString_map_readChar (cs : List Char) :
    encodeString (cs.map readChar) = encodeString cs ↔ ∀ c ∈ cs, ¬ IsLost c := by
  induction cs with
  | nil => exact ⟨fun _ c hc => absurd hc not_mem_nil, fun _ => rfl⟩
  | cons c cs ih =>
    rw [map_cons, encodeString_cons, encodeString_cons, forall_mem_cons, ← encodeChar_readChar c,
      ← ih]
    exact ⟨fun heq => append_inj heq (length_encodeChar_readChar c),
      fun heq => by rw [heq.1, heq.2]⟩

mutual

theorem readBack_eq_datum : ∀ j : JsonValue, j.readBack = j.datum ↔ j.Safe DoubleExact
  | .boolean b => ⟨fun _ => trivial, fun _ => rfl⟩
  | .null => ⟨fun _ => trivial, fun _ => rfl⟩
  | .fixnum n => datum_numberText n
  | .string cs => by
    rw [JsonValue.readBack, JsonValue.datum, Datum.string.injEq]
    exact encodeString_map_readChar cs
  | .vector elems => by
    rw [JsonValue.readBack, JsonValue.datum, Datum.vector.injEq]
    exact readBacks_eq_datums elems
  | .object members => by
    rw [JsonValue.readBack, JsonValue.datum, Datum.list.injEq]
    exact readBackMembers_eq_datumMembers members

theorem readBacks_eq_datums : ∀ elems : List JsonValue,
    JsonValue.readBacks elems = JsonValue.datums elems ↔ JsonValue.SafeElems DoubleExact elems
  | [] => ⟨fun _ => trivial, fun _ => rfl⟩
  | elem :: rest => by
    rw [JsonValue.readBacks, JsonValue.datums, List.cons.injEq, readBack_eq_datum elem,
      readBacks_eq_datums rest]
    rfl

theorem readBackMembers_eq_datumMembers : ∀ members : List (List Char × JsonValue),
    JsonValue.readBackMembers members = JsonValue.datumMembers members ↔
      JsonValue.SafeMembers DoubleExact members
  | [] => ⟨fun _ => trivial, fun _ => rfl⟩
  | (key, val) :: rest => by
    rw [JsonValue.readBackMembers, JsonValue.datumMembers, List.cons.injEq, Prod.mk.injEq,
      Datum.symbol.injEq, encodeString_map_readChar, readBack_eq_datum val,
      readBackMembers_eq_datumMembers rest, and_assoc]
    rfl

end

/-! ## The round trip -/

section

variable (jsonWriteFlonum : NumberText → Except WriteError (List UInt8))

/-- The reader makes the value of the text that the writer makes of it. -/
def RoundTrips (j : JsonValue) : Prop :=
  ∃ text, jsonWrite jsonWriteFlonum j.datum = .ok text ∧ sexpJsonRead text = .ok (j.datum, [])

theorem roundTrips_iff_readBack (j : JsonValue) (hsized : j.Sized) :
    RoundTrips jsonWriteFlonum j ↔ j.readBack = j.datum := by
  have hread : sexpJsonRead j.text = .ok (j.readBack, []) := by
    have hends : NumberEnds [] := fun ch hch => absurd hch (by simp)
    have htext := @jsonRead_text j (2 * j.text.length + 1) _ hsized hends
      (by rw [append_nil]; exact Nat.lt_succ_self _)
    rwa [append_nil] at htext
  unfold RoundTrips
  rw [jsonWrite_datum _ j hsized]
  simp only [Except.ok.injEq, exists_eq_left', hread, Prod.mk.injEq, and_true]

/-- A value comes back if its strings and keys have no lost character and no sum is rounded where its
numbers are computed; one with a lost character, or with a number that is no double, does not. -/
theorem roundTrips_of_noRounding (j : JsonValue) (hsized : j.Sized) :
    (j.Safe NoRounding → RoundTrips jsonWriteFlonum j) ∧
      (RoundTrips jsonWriteFlonum j → j.Safe IsDouble) := by
  rw [roundTrips_iff_readBack jsonWriteFlonum j hsized, readBack_eq_datum]
  exact ⟨JsonValue.Safe.imp (fun _ => doubleExact_of_noRounding) j,
    JsonValue.Safe.imp (fun _ => isDouble_of_doubleExact) j⟩

end

/-- An object whose text has escapes of both kinds, with a number just far enough below `2 ^ 53`. -/
theorem roundTrips_object : RoundTrips (fun _ => .error .undefined)
    (.object [(['k', 'é'], .vector [.boolean true, .fixnum (sexpMakeFixnum (48 - 2 ^ 53)), .null]),
      (['\n'], .string ['"', '😀'])]) := by
  refine (roundTrips_of_noRounding _ _ ?_).1 ?_
  · exact ⟨by decide, ⟨by decide, trivial, trivial, trivial, trivial⟩, by decide,
      (by decide : (encodeString ['"', '😀']).length + 4 ≤ 2 ^ 31), trivial⟩
  · refine ⟨by simp [IsLost], ⟨trivial, noRounding_of_le ?_, trivial, trivial⟩,
      by simp [IsLost], ?_, trivial⟩
    · rw [sexpMakeFixnum_val ((inFixnumRange_iff _).mpr (by decide))]
      decide
    · simp [JsonValue.Safe, IsLost]

/-- A form feed comes back as the letter of its escape, and an odd number above `2^53` as another
number. -/
theorem formFeed_lost :
    ¬ RoundTrips (fun _ => .error .undefined) (.string [Char.ofNat 12]) ∧
      ¬ RoundTrips (fun _ => .error .undefined) (.fixnum (sexpMakeFixnum (2 ^ 53 + 1))) := by
  constructor
  · rw [roundTrips_iff_readBack _ (.string [Char.ofNat 12])
      (by decide : (encodeString [Char.ofNat 12]).length + 4 ≤ 2 ^ 31), readBack_eq_datum]
    intro hsafe
    exact hsafe _ mem_cons_self (.inr (.inl rfl))
  · rw [roundTrips_iff_readBack _ (.fixnum (sexpMakeFixnum (2 ^ 53 + 1))) trivial, readBack_eq_datum]
    intro hexact
    have hdouble : IsDouble (2 ^ 53 + 1) := isDouble_of_doubleExact hexact
    have hlog : Nat.log 2 (2 ^ 53 + 1) = 53 := Nat.log_eq_of_pow_le_of_lt_pow (by omega) (by omega)
    unfold IsDouble Rounding.Representable Rounding.unit at hdouble
    rw [hlog] at hdouble
    revert hdouble
    decide

end ChibiScheme.Json
