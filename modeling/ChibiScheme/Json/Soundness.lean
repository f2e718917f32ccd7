import ChibiScheme.Json.Grammar

/-!
# Soundness of the reader

A text that the reader returns an object for starts with a value of the reader's grammar, and every
other text gives an exception.
-/

namespace ChibiScheme.Json

open List

variable {fuel : ℕ} {input rest : List UInt8} {comma : Bool} {v : Datum}

theorem bind_eq_ok {α β : Type} {x : Except ReadError α} {f : α → Except ReadError β} {b : β}
    (hbind : (x >>= f) = .ok b) : ∃ a, x = .ok a ∧ f a = .ok b := by
  cases x with
  | error e => exact absurd hbind (by simp [bind, Except.bind])
  | ok a => exact ⟨a, rfl, hbind⟩

theorem isSpace_dropWhile (input : List UInt8) :
    ∃ s, input = s ++ input.dropWhile isspace ∧ IsSpace s :=
  ⟨input.takeWhile isspace, takeWhile_append_dropWhile.symm, fun _ hch =>
    mem_takeWhile_imp hch⟩

theorem IsSpace.cons {ch : UInt8} {s : List UInt8} (hch : isspace ch = true) (hs : IsSpace s) :
    IsSpace (ch :: s) := by
  intro d hd
  obtain rfl | hd := mem_cons.mp hd
  · exact hch
  · exact hs d hd

theorem Elements.spaces {g : Grammar} {s w : List UInt8} {elems : List Datum} (hs : IsSpace s)
    (hw : Elements g comma w elems) : Elements g comma (s ++ w) elems := by
  induction s with
  | nil => exact hw
  | cons ch s ih =>
    exact .space (hs ch mem_cons_self) (ih fun d hd => hs d (mem_cons_of_mem ch hd))

theorem Members.spaces {g : Grammar} {s w : List UInt8} {members : List (Datum × Datum)}
    (hs : IsSpace s) (hw : Members g comma w members) : Members g comma (s ++ w) members := by
  induction s with
  | nil => exact hw
  | cons ch s ih =>
    exact .space (hs ch mem_cons_self) (ih fun d hd => hs d (mem_cons_of_mem ch hd))

/-- The elements read with less fuel make an array. -/
theorem jsonReadArray_sound (hsound : Sound fuel) {res : List Datum}
    (hstate : comma = false → res ≠ [])
    (hread : jsonReadArray (fuel + 1) input comma res = .ok (v, rest)) :
    ∃ w elems, input = w ++ rest ∧ v = .vector (res.reverse ++ elems) ∧
      (Elements readerGrammar comma w elems ∨
        (comma = true ∧ res = [] ∧ elems = [] ∧ ∃ s, IsSpace s ∧ w = s ++ [byte ']'])) := by
  cases input with
  | nil => exact absurd hread (by simp [jsonReadArray])
  | cons ch input =>
    rw [jsonReadArray] at hread
    split at hread
    · rename_i hclose
      split at hread
      · exact absurd hread (by simp)
      rename_i hres
      obtain ⟨rfl, rfl⟩ := Prod.mk.inj (Except.ok.inj hread)
      refine ⟨[ch], [], rfl, by rw [append_nil], ?_⟩
      cases comma with
      | false => exact .inl (hclose ▸ .close)
      | true =>
        have hnil : res = [] := by simpa using hres
        exact .inr ⟨rfl, hnil, rfl, [], fun _ hmem => absurd hmem not_mem_nil, hclose ▸ rfl⟩
    · split at hread
      · exact absurd hread (by simp)
      rename_i hcomma
      split at hread
      · -- a comma behind a value
        rename_i hch
        have hfalse : comma = false := by simpa [hch] using hcomma
        have hne := hstate hfalse
        subst hfalse
        obtain ⟨w, elems, rfl, rfl, hw⟩ := hsound.array (fun htrue => absurd htrue (by simp)) hread
        refine ⟨ch :: w, elems, rfl, rfl, .inl ?_⟩
        rw [hch]
        exact .comma (hw.resolve_right fun hempty => hne hempty.2.1)
      · split at hread
        · split at hread
          · -- the next value
            rename_i hexpected
            obtain ⟨⟨tmp, input'⟩, hvalue, hread⟩ := bind_eq_ok hread
            obtain ⟨s, w, hinput, hs, hw⟩ := hsound.read hvalue
            obtain ⟨w', elems, rfl, rfl, hw'⟩ :=
              hsound.array (fun _ => cons_ne_nil tmp res) hread
            refine ⟨s ++ w ++ w', tmp :: elems, by rw [hinput, append_assoc (s ++ w)], ?_,
              .inl ?_⟩
            · rw [reverse_cons, append_assoc]
              rfl
            · rw [hexpected, append_assoc]
              exact .spaces hs (.value hw (hw'.resolve_right fun hempty => by simp at hempty))
          · exact absurd hread (by simp)
        · rename_i hspace
          have hspace' : isspace ch = true := by simpa using hspace
          obtain ⟨w, elems, rfl, rfl, hw⟩ := hsound.array hstate hread
          refine ⟨ch :: w, elems, rfl, rfl, ?_⟩
          obtain hw | ⟨hexpected, hres, helems, s, hs, rfl⟩ := hw
          · exact .inl (.space hspace' hw)
          · exact .inr ⟨hexpected, hres, helems, ch :: s, hs.cons hspace', rfl⟩

/-- The members read with less fuel make an object. -/
theorem jsonReadObject_sound (hsound : Sound fuel) {res : List (Datum × Datum)}
    (hstate : comma = false → res ≠ [])
    (hread : jsonReadObject (fuel + 1) input comma res = .ok (v, rest)) :
    ∃ w members, input = w ++ rest ∧ v = .list (res.reverse ++ members) ∧
      (Members readerGrammar comma w members ∨
        (comma = true ∧ res = [] ∧ members = [] ∧ ∃ s, IsSpace s ∧ w = s ++ [byte '}'])) := by
  cases input with
  | nil => exact absurd hread (by simp [jsonReadObject])
  | cons ch input =>
    rw [jsonReadObject] at hread
    split at hread
    · rename_i hclose
      split at hread
      · exact absurd hread (by simp)
      rename_i hres
      obtain ⟨rfl, rfl⟩ := Prod.mk.inj (Except.ok.inj hread)
      refine ⟨[ch], [], rfl, by rw [append_nil], ?_⟩
      cases comma with
      | false => exact .inl (hclose ▸ .close)
      | true =>
        have hnil : res = [] := by simpa using hres
        exact .inr ⟨rfl, hnil, rfl, [], fun _ hmem => absurd hmem not_mem_nil, hclose ▸ rfl⟩
    · split at hread
      · exact absurd hread (by simp)
      rename_i hcomma
      split at hread
      · -- a comma behind a member
        rename_i hch
        have hfalse : comma = false := by simpa [hch] using hcomma
        have hne := hstate hfalse
        subst hfalse
        obtain ⟨w, members, rfl, rfl, hw⟩ :=
          hsound.object (fun htrue => absurd htrue (by simp)) hread
        refine ⟨ch :: w, members, rfl, rfl, .inl ?_⟩
        rw [hch]
        exact .comma (hw.resolve_right fun hempty => hne hempty.2.1)
      · split at hread
        · split at hread
          · -- the next member
            rename_i hexpected
            obtain ⟨⟨key, input₁⟩, hkey, hread⟩ := bind_eq_ok hread
            obtain ⟨s, k, hinput, hs, hk⟩ := hsound.read hkey
            obtain ⟨s₁, hinput₁, hs₁⟩ := isSpace_dropWhile input₁
            simp only at hread
            split at hread
            · exact absurd hread (by simp)
            rename_i ch' input₂ hdrop
            split at hread
            · exact absurd hread (by simp)
            rename_i hcolon
            obtain ⟨⟨value, input₃⟩, hvalue, hread⟩ := bind_eq_ok hread
            obtain ⟨s₂, w, hinput₂, hs₂, hw⟩ := hsound.read hvalue
            obtain ⟨w', members, rfl, rfl, hw'⟩ :=
              hsound.object (fun _ => cons_ne_nil _ res) hread
            refine ⟨s ++ (k ++ s₁ ++ byte ':' :: s₂ ++ w ++ w'),
              (stringToKey key, value) :: members, ?_, ?_, .inl ?_⟩
            · rw [hinput, hinput₁, hdrop, hinput₂, not_not.mp hcolon]
              simp only [append_assoc, cons_append]
            · rw [reverse_cons, append_assoc]
              rfl
            · rw [hexpected]
              exact .spaces hs (.member hk trivial hs₁ hs₂ hw
                (hw'.resolve_right fun hempty => by simp at hempty))
          · exact absurd hread (by simp)
        · rename_i hspace
          -- anything else is a space, which is skipped
          have hspace' : isspace ch = true := by simpa using hspace
          obtain ⟨w, members, rfl, rfl, hw⟩ := hsound.object hstate hread
          refine ⟨ch :: w, members, rfl, rfl, ?_⟩
          obtain hw | ⟨hexpected, hres, hmembers, s, hs, rfl⟩ := hw
          · exact .inl (.space hspace' hw)
          · exact .inr ⟨hexpected, hres, hmembers, ch :: s, hs.cons hspace', rfl⟩

theorem readLiteral_sound {ch : UInt8} {l : List UInt8 × List UInt8 × Datum} (hl : l ∈ literals)
    (hch : ch ∈ l.1) (input : List UInt8) :
    ∃ w, ch :: input = w ++ jsonReadLiteral l.2.1 input ∧ Value readerGrammar w l.2.2 := by
  obtain ⟨letters, hletters, hlength⟩ := jsonReadLiteral_spec l.2.1 input
  exact ⟨ch :: letters, congrArg (ch :: ·) hletters,
    .literal ⟨l, hl, ch, hch, letters, rfl, hlength, rfl⟩⟩

theorem jsonRead_sound_step (hsound : Sound fuel) (hread : jsonRead (fuel + 1) input = .ok (v, rest)) :
    ∃ s w, input = s ++ w ++ rest ∧ IsSpace s ∧ Value readerGrammar w v := by
  obtain ⟨s, hinput, hs⟩ := isSpace_dropWhile input
  suffices hvalue : ∃ w, input.dropWhile isspace = w ++ rest ∧ Value readerGrammar w v by
    obtain ⟨w, hw, hv⟩ := hvalue
    exact ⟨s, w, by rw [append_assoc, ← hw, ← hinput], hs, hv⟩
  rw [jsonRead] at hread
  generalize input.dropWhile isspace = text at hread
  cases text with
  | nil => exact absurd hread (by simp)
  | cons ch text =>
    simp only at hread
    split at hread
    · rename_i hch
      obtain ⟨w, members, rfl, rfl, hw⟩ := hsound.object (fun htrue => absurd htrue (by simp)) hread
      refine ⟨ch :: w, rfl, ?_⟩
      rw [hch]
      obtain hw | ⟨-, -, rfl, s, hs, rfl⟩ := hw
      · exact .object hw
      · exact .emptyObject hs
    · split at hread
      · rename_i hch
        obtain ⟨w, elems, rfl, rfl, hw⟩ := hsound.array (fun htrue => absurd htrue (by simp)) hread
        refine ⟨ch :: w, rfl, ?_⟩
        rw [hch]
        obtain hw | ⟨-, -, rfl, s, hs, rfl⟩ := hw
        · exact .array hw
        · exact .emptyArray hs
      · split at hread
        · rename_i hch
          obtain ⟨⟨bytes, input'⟩, hstring, hresult⟩ := bind_eq_ok hread
          obtain ⟨rfl, rfl⟩ := Prod.mk.inj (Except.ok.inj hresult)
          obtain ⟨w, bytes', rfl, rfl, hw⟩ := jsonReadString_spec hstring
          exact ⟨ch :: w, rfl, hch ▸ .string hw⟩
        · split at hread
          · rename_i hch
            obtain ⟨rfl, rfl⟩ := Prod.mk.inj (Except.ok.inj hread)
            obtain ⟨hscan, ht⟩ := scanNumber_spec (ch :: text)
            exact ⟨_, hscan.symm, .number ht (scanNumber_start hch) trivial⟩
          · split at hread
            · rename_i hch
              obtain ⟨rfl, rfl⟩ := Prod.mk.inj (Except.ok.inj hread)
              exact readLiteral_sound (l := literals[0]) (by simp [literals])
                (by simpa [literals] using hch) text
            · split at hread
              · rename_i hch
                obtain ⟨rfl, rfl⟩ := Prod.mk.inj (Except.ok.inj hread)
                exact readLiteral_sound (l := literals[1]) (by simp [literals])
                  (by simpa [literals] using hch) text
              · split at hread
                · rename_i hch
                  obtain ⟨rfl, rfl⟩ := Prod.mk.inj (Except.ok.inj hread)
                  exact readLiteral_sound (l := literals[2]) (by simp [literals])
                    (by simpa [literals] using hch) text
                · split at hread
                  · exact absurd hread (by simp)
                  · split at hread
                    · exact absurd hread (by simp)
                    · exact absurd hread (by simp)

/-- By induction on the fuel. -/
theorem sound (fuel : ℕ) : Sound fuel := by
  induction fuel with
  | zero =>
    refine ⟨fun hread => ?_, fun _ hread => ?_, fun _ hread => ?_⟩
    · exact absurd hread (by simp [jsonRead])
    · exact absurd hread (by simp [jsonReadArray])
    · exact absurd hread (by simp [jsonReadObject])
  | succ fuel ih =>
    exact ⟨jsonRead_sound_step ih, jsonReadArray_sound ih, jsonReadObject_sound ih⟩

/-! ## Termination and overflow -/

theorem Value.ne_nil {w : List UInt8} {v : Datum} (hv : Value readerGrammar w v) : w ≠ [] := by
  cases hv with
  | literal hliteral =>
    obtain ⟨l, -, ch, -, letters, rfl, -⟩ := hliteral
    exact cons_ne_nil _ _
  | number ht hstart hnumber =>
    intro hnil
    rw [NumberText.text, append_eq_nil_iff, append_eq_nil_iff] at hnil
    exact hstart hnil.1.1
  | string hw => exact cons_ne_nil _ _
  | emptyArray hs => exact cons_ne_nil _ _
  | array hw => exact cons_ne_nil _ _
  | emptyObject hs => exact cons_ne_nil _ _
  | object hw => exact cons_ne_nil _ _

theorem jsonRead_length_lt (hread : jsonRead fuel input = .ok (v, rest)) :
    rest.length < input.length := by
  obtain ⟨s, w, rfl, -, hv⟩ := (sound fuel).read hread
  have hpos := length_pos_iff.mpr hv.ne_nil
  rw [length_append, length_append]
  omega

theorem bind_ne_error {α β : Type} {e : ReadError} {x : Except ReadError α}
    {f : α → Except ReadError β} (hx : x ≠ .error e) (hf : ∀ a, x = .ok a → f a ≠ .error e) :
    (x >>= f) ≠ .error e := by
  cases x with
  | error e' =>
    intro hbind
    exact hx (by simpa [bind, Except.bind] using hbind)
  | ok a => exact hf a rfl

theorem length_dropWhile_le (input : List UInt8) :
    (input.dropWhile isspace).length ≤ input.length :=
  (dropWhile_suffix isspace).length_le

theorem readUnicodeEscape_ne_error {e : ReadError} (he : ∀ message, e ≠ .exception message)
    (input : List UInt8) : readUnicodeEscape input ≠ .error e := by
  unfold readUnicodeEscape
  repeat' split
  all_goals first | exact fun herror => he _ (Except.error.inj herror).symm | simp

theorem readUnicodeEscape_length_le {code : ℕ} (hread : readUnicodeEscape input = .ok (code, rest)) :
    rest.length + 4 ≤ input.length := by
  unfold readUnicodeEscape at hread
  split at hread
  · exact absurd hread (by simp)
  rename_i utfchar input' hdecode
  obtain ⟨digits, rfl, hlength, -⟩ := isUseq_of_decodeUseq hdecode
  rw [length_append, hlength]
  split at hread
  · split at hread
    · split at hread
      · split at hread
        · exact absurd hread (by simp)
        rename_i utfchar2 rest' hdecode'
        obtain ⟨digits', rfl, -⟩ := isUseq_of_decodeUseq hdecode'
        split at hread
        · obtain ⟨-, rfl⟩ := Prod.mk.inj (Except.ok.inj hread)
          simp only [length_cons, length_append]
          omega
        · exact absurd hread (by simp)
      · obtain ⟨-, rfl⟩ := Prod.mk.inj (Except.ok.inj hread)
        omega
    · obtain ⟨-, rfl⟩ := Prod.mk.inj (Except.ok.inj hread)
      omega
  · obtain ⟨-, rfl⟩ := Prod.mk.inj (Except.ok.inj hread)
    omega

theorem length_encodeCode_le (code : ℕ) : (encodeCode code).length ≤ 4 := by
  unfold encodeCode sexpUtf8EncodeChar
  split <;> simp

/-- An error that a text of at most `limit` bytes does not give: the fuel is enough, or no string is long
enough for an overflow. -/
def NoError (limit : ℕ) (e : ReadError) : Prop :=
  e = .unfinished ∨ (e = .overflow ∧ limit + 4 < 2 ^ 31)

theorem NoError.ne_exception {limit : ℕ} {e : ReadError} (he : NoError limit e) (message : String) :
    e ≠ .exception message := by
  obtain rfl | ⟨rfl, -⟩ := he
  · simp
  · simp

/-- What a string takes from the text is at least what it puts into the buffer. -/
theorem jsonReadString_ne_error {limit : ℕ} {e : ReadError} (he : NoError limit e) {buf : List UInt8}
    (hfuel : input.length < fuel) (hlimit : buf.length + input.length ≤ limit) :
    jsonReadString fuel input buf ≠ .error e := by
  induction fuel generalizing input buf with
  | zero => exact absurd hfuel (Nat.not_lt_zero _)
  | succ fuel ih =>
    cases input with
    | nil =>
      rw [jsonReadString]
      exact fun herror => he.ne_exception _ (Except.error.inj herror).symm
    | cons ch input =>
      simp only [length_cons] at hfuel hlimit
      have hpush : ∀ c : UInt8, (buf ++ [c]).length + input.length ≤ limit := fun c => by
        rw [length_append, length_singleton]
        omega
      rw [jsonReadString.eq_def]
      simp only
      split
      · simp
      split
      · rename_i hover
        obtain rfl | ⟨rfl, hsmall⟩ := he
        · simp
        · omega
      split
      · cases input with
        | nil => exact ih (by simp only [length_nil]; omega) (hpush 0xFF)
        | cons ch input =>
          have hpush' : ∀ c : UInt8, (buf ++ [c]).length + input.length ≤ limit := fun c =>
            (Nat.add_le_add_left (Nat.le_succ _) _).trans (hpush c)
          simp only [length_cons] at hfuel hlimit
          simp only
          split
          · exact ih (by omega) (hpush' 10)
          split
          · exact ih (by omega) (hpush' 9)
          split
          · apply bind_ne_error (readUnicodeEscape_ne_error he.ne_exception input)
            rintro ⟨code, rest⟩ hresult
            have hle := readUnicodeEscape_length_le hresult
            have hcode := length_encodeCode_le code
            show jsonReadString fuel rest (buf ++ encodeCode code) ≠ .error e
            refine ih (by omega) ?_
            rw [length_append]
            omega
          · exact ih (by omega) (hpush' ch)
      · exact ih (by omega) (hpush ch)

/-- With that much fuel a call gives no such error. -/
structure Finishes (limit : ℕ) (e : ReadError) (fuel : ℕ) : Prop where
  read : ∀ {input : List UInt8}, input.length ≤ limit → 2 * input.length < fuel →
    jsonRead fuel input ≠ .error e
  array : ∀ {input : List UInt8} {comma : Bool} {res : List Datum}, input.length ≤ limit →
    2 * input.length + 1 < fuel → jsonReadArray fuel input comma res ≠ .error e
  object : ∀ {input : List UInt8} {comma : Bool} {res : List (Datum × Datum)},
    input.length ≤ limit → 2 * input.length + 1 < fuel →
      jsonReadObject fuel input comma res ≠ .error e

section

variable {limit : ℕ} {e : ReadError} (he : NoError limit e) (hfinishes : Finishes limit e fuel)
include he hfinishes

theorem jsonReadArray_finishes {res : List Datum} (hlimit : input.length ≤ limit)
    (hfuel : 2 * input.length + 1 < fuel + 1) :
    jsonReadArray (fuel + 1) input comma res ≠ .error e := by
  have hraise : ∀ message : String,
      (.error (.exception message) : Except ReadError (Datum × List UInt8)) ≠ .error e :=
    fun message herror => he.ne_exception message (Except.error.inj herror).symm
  cases input with
  | nil =>
    rw [jsonReadArray]
    exact hraise _
  | cons ch input =>
    simp only [length_cons] at hfuel hlimit
    rw [jsonReadArray]
    split
    · split
      · exact hraise _
      · simp
    split
    · exact hraise _
    split
    · exact hfinishes.array (by omega) (by omega)
    split
    · split
      · apply bind_ne_error
        · exact hfinishes.read (by simp only [length_cons]; omega)
            (by simp only [length_cons]; omega)
        · intro result hresult
          have hlt := jsonRead_length_lt hresult
          simp only [length_cons] at hlt
          exact hfinishes.array (by omega) (by omega)
      · exact hraise _
    · exact hfinishes.array (by omega) (by omega)

theorem jsonReadObject_finishes {res : List (Datum × Datum)} (hlimit : input.length ≤ limit)
    (hfuel : 2 * input.length + 1 < fuel + 1) :
    jsonReadObject (fuel + 1) input comma res ≠ .error e := by
  have hraise : ∀ message : String,
      (.error (.exception message) : Except ReadError (Datum × List UInt8)) ≠ .error e :=
    fun message herror => he.ne_exception message (Except.error.inj herror).symm
  cases input with
  | nil =>
    rw [jsonReadObject]
    exact hraise _
  | cons ch input =>
    simp only [length_cons] at hfuel hlimit
    rw [jsonReadObject]
    split
    · split
      · exact hraise _
      · simp
    split
    · exact hraise _
    split
    · exact hfinishes.object (by omega) (by omega)
    split
    · split
      · apply bind_ne_error
        · exact hfinishes.read (by simp only [length_cons]; omega)
            (by simp only [length_cons]; omega)
        rintro ⟨key, input₁⟩ hkey
        have hlt := jsonRead_length_lt hkey
        have hle := length_dropWhile_le input₁
        simp only [length_cons] at hlt
        simp only
        split
        · exact hraise _
        rename_i ch' input₂ hdrop
        rw [hdrop, length_cons] at hle
        split
        · exact hraise _
        · apply bind_ne_error
          · exact hfinishes.read (by omega) (by omega)
          · intro result hresult
            have hlt' := jsonRead_length_lt hresult
            exact hfinishes.object (by omega) (by omega)
      · exact hraise _
    · exact hfinishes.object (by omega) (by omega)

theorem jsonRead_finishes (hlimit : input.length ≤ limit) (hfuel : 2 * input.length < fuel + 1) :
    jsonRead (fuel + 1) input ≠ .error e := by
  have hraise : ∀ message : String,
      (.error (.exception message) : Except ReadError (Datum × List UInt8)) ≠ .error e :=
    fun message herror => he.ne_exception message (Except.error.inj herror).symm
  have hle := length_dropWhile_le input
  rw [jsonRead]
  generalize input.dropWhile isspace = text at hle
  cases text with
  | nil => exact hraise _
  | cons ch text =>
    rw [length_cons] at hle
    simp only
    split
    · exact hfinishes.object (by omega) (by omega)
    split
    · exact hfinishes.array (by omega) (by omega)
    split
    · apply bind_ne_error
      · refine jsonReadString_ne_error he (Nat.lt_succ_self _) ?_
        rw [length_nil, Nat.zero_add]
        omega
      · intro result hresult
        simp
    · repeat' split
      all_goals first | exact hraise _ | simp

end

theorem finishes {limit : ℕ} {e : ReadError} (he : NoError limit e) (fuel : ℕ) :
    Finishes limit e fuel := by
  induction fuel with
  | zero =>
    exact ⟨fun _ hfuel => absurd hfuel (Nat.not_lt_zero _),
      fun _ hfuel => absurd hfuel (Nat.not_lt_zero _),
      fun _ hfuel => absurd hfuel (Nat.not_lt_zero _)⟩
  | succ fuel ih =>
    exact ⟨jsonRead_finishes he ih, jsonReadArray_finishes he ih, jsonReadObject_finishes he ih⟩

/-! ## Every text -/

/-- The text gives an exception, or an object that the value at its start denotes. -/
def ReadsValue (g : Grammar) (input : List UInt8) : Prop :=
  (∃ message, sexpJsonRead input = .error (.exception message)) ∨
    ∃ v s w rest, sexpJsonRead input = .ok (v, rest) ∧ input = s ++ w ++ rest ∧ IsSpace s ∧
      Value g w v

/-- Every text gives an exception or the value at its start, unless a string in it is so long that the
number of its bytes overflows. -/
theorem sexpJsonRead_reads (input : List UInt8) : ReadsValue readerGrammar input ∨
    (sexpJsonRead input = .error .overflow ∧ 2 ^ 31 ≤ input.length + 4) := by
  have hread : ∀ e, NoError input.length e → sexpJsonRead input ≠ .error e := fun e he =>
    (finishes he _).read (le_refl _) (Nat.lt_succ_self _)
  unfold ReadsValue
  cases hresult : sexpJsonRead input with
  | error e =>
    cases e with
    | exception message => exact .inl (.inl ⟨message, rfl⟩)
    | unfinished => exact absurd hresult (hread _ (.inl rfl))
    | overflow =>
      refine .inr ⟨rfl, ?_⟩
      by_contra hsmall
      exact hread _ (.inr ⟨rfl, by omega⟩) hresult
  | ok result =>
    obtain ⟨v, rest⟩ := result
    obtain ⟨s, w, hinput, hs, hv⟩ := (sound _).read hresult
    exact .inl (.inr ⟨v, s, w, rest, rfl, hinput, hs, hv⟩)

/-- A literal may start with a capital letter. -/
theorem capital_not_strict :
    ¬ ReadsValue strictGrammar [byte 'N', byte 'u', byte 'l', byte 'l'] := by
  have hread : sexpJsonRead [byte 'N', byte 'u', byte 'l', byte 'l'] =
      .ok (.symbol (byte 'n' :: ull), []) := rfl
  rintro (⟨message, herror⟩ | ⟨v, s, w, rest, hok, hinput, hs, hv⟩)
  · rw [hread] at herror
    exact absurd herror (by simp)
  · rw [hread] at hok
    obtain ⟨rfl, rfl⟩ := Prod.mk.inj (Except.ok.inj hok)
    rw [append_nil] at hinput
    cases s with
    | cons ch s =>
      rw [cons_append, List.cons.injEq] at hinput
      have hspace := hs ch mem_cons_self
      rw [← hinput.1] at hspace
      exact absurd hspace (by decide)
    | nil =>
      rw [nil_append] at hinput
      generalize hsymbol : Datum.symbol (byte 'n' :: ull) = v at hv
      cases hv with
      | literal hliteral =>
        obtain ⟨l, hl, ch, hch, hw, -⟩ := hliteral
        rw [hw] at hinput
        simp only [literals, mem_cons, not_mem_nil, or_false] at hl
        obtain rfl | rfl | rfl := hl
        all_goals
          obtain rfl := Option.some.inj hch
          exact absurd hinput (by decide)
      | number ht hstart hnumber =>
        unfold NumberText.datum at hsymbol
        simp only at hsymbol
        split at hsymbol
        all_goals exact absurd hsymbol (by simp)
      | string hw => exact absurd hsymbol (by simp)
      | emptyArray hs => exact absurd hsymbol (by simp)
      | array hw => exact absurd hsymbol (by simp)
      | emptyObject hs => exact absurd hsymbol (by simp)
      | object hw => exact absurd hsymbol (by simp)

end ChibiScheme.Json
