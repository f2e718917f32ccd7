import ChibiScheme.Json.Reader

/-!
# The grammar of JSON texts

What the reader accepts, and what a text denotes.  The grammar has parameters: the literals, the numbers
and the keys that are allowed.
-/

namespace ChibiScheme.Json

open List

/-! ## Numbers and strings -/

/-- The exponent as it is written. -/
def Exponent.text (e : Exponent) : List UInt8 :=
  e.marker :: e.sign ++ e.digits

namespace NumberText

/-- The characters one after the other. -/
def text (t : NumberText) : List UInt8 :=
  t.sign ++ t.integer ++ (t.fraction.elim [] (byte '.' :: ·)) ++ t.exponent.elim [] Exponent.text

/-- A sign, or none. -/
def IsSign (sign : List UInt8) : Prop :=
  sign = [] ∨ sign = [byte '+'] ∨ sign = [byte '-']

/-- Only digits. -/
def IsDigits (digits : List UInt8) : Prop :=
  ∀ ch ∈ digits, sexpIsdigit ch = true

/-- The parts of a number.  Each sequence of digits may be empty. -/
structure WellFormed (t : NumberText) : Prop where
  sign : IsSign t.sign
  integer : IsDigits t.integer
  fraction : ∀ digits ∈ t.fraction, IsDigits digits
  exponent : ∀ e ∈ t.exponent, (e.marker = byte 'e' ∨ e.marker = byte 'E') ∧ IsSign e.sign ∧
    IsDigits e.digits

end NumberText

/-- Four hexadecimal digits and their value. -/
def IsUseq (digits : List UInt8) (code : ℕ) : Prop :=
  digits.length = 4 ∧ (∀ ch ∈ digits, sexpIsxdigit ch = true) ∧
    code = digits.foldl (fun result ch => (result <<< 4) + (digitValue ch).toNat) 0

/-- A high surrogate. -/
def IsHigh (code : ℕ) : Prop := 0xD800 ≤ code ∧ code ≤ 0xDBFF

/-- A low surrogate. -/
def IsLow (code : ℕ) : Prop := 0xDC00 ≤ code ∧ code ≤ 0xDFFF

/-- The character of two surrogates. -/
def combine (high low : ℕ) : ℕ :=
  0x10000 + (((high - 0xD800) <<< 10) ||| (low - 0xDC00))

/-- The part of a string behind the first quotation mark, and the bytes of the string. -/
inductive StringBody : List UInt8 → List UInt8 → Prop where
  | close : StringBody [quotationMark] []
  | plain {ch : UInt8} {w bytes : List UInt8} (hquote : ch ≠ quotationMark) (hch : ch ≠ backslash)
      (hw : StringBody w bytes) : StringBody (ch :: w) (ch :: bytes)
  | newline {w bytes : List UInt8} (hw : StringBody w bytes) :
      StringBody (backslash :: byte 'n' :: w) (10 :: bytes)
  | tab {w bytes : List UInt8} (hw : StringBody w bytes) :
      StringBody (backslash :: byte 't' :: w) (9 :: bytes)
  | other {ch : UInt8} {w bytes : List UInt8} (hch : ch ∉ [byte 'n', byte 't', byte 'u'])
      (hw : StringBody w bytes) : StringBody (backslash :: ch :: w) (ch :: bytes)
  | unicode {digits w bytes : List UInt8} {code : ℕ} (hdigits : IsUseq digits code)
      (hlone : ¬ (IsHigh code ∧ [backslash, byte 'u'] <+: w)) (hw : StringBody w bytes) :
      StringBody (backslash :: byte 'u' :: digits ++ w) (encodeCode code ++ bytes)
  | pair {digits digits' w bytes : List UInt8} {high low : ℕ} (hdigits : IsUseq digits high)
      (hdigits' : IsUseq digits' low) (hhigh : IsHigh high) (hlow : IsLow low)
      (hw : StringBody w bytes) :
      StringBody (backslash :: byte 'u' :: digits ++ backslash :: byte 'u' :: digits' ++ w)
        (encodeCode (combine high low) ++ bytes)

/-! ## Values -/

/-- The parts of the grammar in which readers differ. -/
structure Grammar where
  literal : List UInt8 → Datum → Prop
  number : NumberText → Prop
  key : Datum → Prop

/-- Only white space. -/
def IsSpace (s : List UInt8) : Prop := ∀ ch ∈ s, isspace ch = true

mutual

/-- A value of the grammar and what it is read as. -/
inductive Value (g : Grammar) : List UInt8 → Datum → Prop where
  | literal {w : List UInt8} {v : Datum} (hliteral : g.literal w v) : Value g w v
  | number {t : NumberText} (ht : t.WellFormed) (hstart : t.sign ++ t.integer ≠ [])
      (hnumber : g.number t) : Value g t.text t.datum
  | string {w bytes : List UInt8} (hw : StringBody w bytes) :
      Value g (quotationMark :: w) (.string bytes)
  | emptyArray {s : List UInt8} (hs : IsSpace s) : Value g (byte '[' :: s ++ [byte ']']) (.vector [])
  | array {w : List UInt8} {elems : List Datum} (hw : Elements g true w elems) :
      Value g (byte '[' :: w) (.vector elems)
  | emptyObject {s : List UInt8} (hs : IsSpace s) : Value g (byte '{' :: s ++ [byte '}']) (.list [])
  | object {w : List UInt8} {members : List (Datum × Datum)} (hw : Members g true w members) :
      Value g (byte '{' :: w) (.list members)

/-- The rest of an array: a value comes next, or a comma or the end does. -/
inductive Elements (g : Grammar) : Bool → List UInt8 → List Datum → Prop where
  | close : Elements g false [byte ']'] []
  | space {expected : Bool} {ch : UInt8} {w : List UInt8} {elems : List Datum}
      (hch : isspace ch = true) (hw : Elements g expected w elems) :
      Elements g expected (ch :: w) elems
  | comma {w : List UInt8} {elems : List Datum} (hw : Elements g true w elems) :
      Elements g false (byte ',' :: w) elems
  | value {w w' : List UInt8} {v : Datum} {elems : List Datum} (hv : Value g w v)
      (hw : Elements g false w' elems) : Elements g true (w ++ w') (v :: elems)

/-- The rest of an object. -/
inductive Members (g : Grammar) : Bool → List UInt8 → List (Datum × Datum) → Prop where
  | close : Members g false [byte '}'] []
  | space {expected : Bool} {ch : UInt8} {w : List UInt8} {members : List (Datum × Datum)}
      (hch : isspace ch = true) (hw : Members g expected w members) :
      Members g expected (ch :: w) members
  | comma {w : List UInt8} {members : List (Datum × Datum)} (hw : Members g true w members) :
      Members g false (byte ',' :: w) members
  | member {k s s' w w' : List UInt8} {key v : Datum} {members : List (Datum × Datum)}
      (hk : Value g k key) (hkey : g.key key) (hs : IsSpace s) (hs' : IsSpace s')
      (hv : Value g w v) (hw : Members g false w' members) :
      Members g true (k ++ s ++ byte ':' :: s' ++ w ++ w') ((stringToKey key, v) :: members)

end

/-- The first letters of a literal, the rest of its name, and the object. -/
def literals : List (List UInt8 × List UInt8 × Datum) :=
  [([byte 'n', byte 'N'], ull, .symbol (byte 'n' :: ull)),
    ([byte 't', byte 'T'], rue, .boolean true),
    ([byte 'f', byte 'F'], alse, .boolean false)]

/-- The grammar of the reader.  Nothing is said of the letters of a literal behind the first one but how
many there are at most. -/
def readerGrammar : Grammar where
  literal w v := ∃ l ∈ literals, ∃ ch ∈ l.1, ∃ letters, w = ch :: letters ∧
    letters.length ≤ l.2.1.length ∧ v = l.2.2
  number _ := True
  key _ := True

/-- The grammar in which a literal is spelled exactly, a number has digits, and a key is a string. -/
def strictGrammar : Grammar where
  literal w v := ∃ l ∈ literals, ∃ ch ∈ l.1.head?, w = ch :: l.2.1 ∧ v = l.2.2
  number t := t.integer ≠ []
  key key := ∃ bytes, key = .string bytes

/-! ## Numbers are scanned -/

section Scan

variable (input : List UInt8)

theorem scanSign_spec :
    (scanSign input).1 ++ (scanSign input).2 = input ∧ NumberText.IsSign (scanSign input).1 := by
  cases input with
  | nil => exact ⟨rfl, .inl rfl⟩
  | cons ch input =>
    rw [scanSign]
    split
    · rename_i hch
      obtain rfl | rfl := hch
      · exact ⟨rfl, .inr (.inl rfl)⟩
      · exact ⟨rfl, .inr (.inr rfl)⟩
    · exact ⟨rfl, .inl rfl⟩

theorem scanDigits_spec :
    (scanDigits input).1 ++ (scanDigits input).2 = input ∧
      NumberText.IsDigits (scanDigits input).1 :=
  ⟨takeWhile_append_dropWhile, fun _ hch => mem_takeWhile_imp hch⟩

theorem scanFraction_spec :
    (scanFraction input).1.elim [] (byte '.' :: ·) ++ (scanFraction input).2 = input ∧
      ∀ digits ∈ (scanFraction input).1, NumberText.IsDigits digits := by
  cases input with
  | nil => exact ⟨rfl, fun digits hmem => absurd hmem (Option.not_mem_none digits)⟩
  | cons ch input =>
    obtain ⟨hinput, hdigits⟩ := scanDigits_spec input
    rw [scanFraction]
    split
    · rename_i hch
      refine ⟨?_, fun digits hmem => ?_⟩
      · rw [hch]
        exact congrArg (byte '.' :: ·) hinput
      · rwa [← Option.some.inj hmem]
    · exact ⟨rfl, fun digits hmem => absurd hmem (Option.not_mem_none digits)⟩

theorem scanExponent_spec :
    (scanExponent input).1.elim [] Exponent.text ++ (scanExponent input).2 = input ∧
      ∀ e ∈ (scanExponent input).1, (e.marker = byte 'e' ∨ e.marker = byte 'E') ∧
        NumberText.IsSign e.sign ∧ NumberText.IsDigits e.digits := by
  cases input with
  | nil => exact ⟨rfl, fun e hmem => absurd hmem (Option.not_mem_none e)⟩
  | cons ch input =>
    obtain ⟨hsign, hsign'⟩ := scanSign_spec input
    obtain ⟨hdigits, hdigits'⟩ := scanDigits_spec (scanSign input).2
    rw [scanExponent]
    split
    · rename_i hch
      refine ⟨?_, fun e hmem => ?_⟩
      · show (ch :: (scanSign input).1 ++ _) ++ _ = ch :: input
        rw [cons_append, cons_append, append_assoc, hdigits, hsign]
      · rw [← Option.some.inj hmem]
        exact ⟨hch, hsign', hdigits'⟩
    · exact ⟨rfl, fun e hmem => absurd hmem (Option.not_mem_none e)⟩

/-- What is scanned is a number. -/
theorem scanNumber_spec :
    (scanNumber input).1.text ++ (scanNumber input).2 = input ∧ (scanNumber input).1.WellFormed := by
  obtain ⟨hsign, hsign'⟩ := scanSign_spec input
  obtain ⟨hinteger, hinteger'⟩ := scanDigits_spec (scanSign input).2
  obtain ⟨hfraction, hfraction'⟩ := scanFraction_spec (scanDigits (scanSign input).2).2
  obtain ⟨hexponent, hexponent'⟩ :=
    scanExponent_spec (scanFraction (scanDigits (scanSign input).2).2).2
  refine ⟨?_, hsign', hinteger', hfraction', hexponent'⟩
  rw [NumberText.text, append_assoc, append_assoc, append_assoc]
  calc _ = (scanSign input).1 ++ ((scanDigits (scanSign input).2).1 ++
        ((scanFraction (scanDigits (scanSign input).2).2).1.elim [] (byte '.' :: ·) ++
          (scanFraction (scanDigits (scanSign input).2).2).2)) := by rw [← hexponent]; rfl
    _ = input := by rw [hfraction, hinteger, hsign]

theorem scanNumber_start {ch : UInt8} {input : List UInt8}
    (hch : ch = byte '-' ∨ ch = byte '+' ∨ sexpIsdigit ch = true) :
    (scanNumber (ch :: input)).1.sign ++ (scanNumber (ch :: input)).1.integer ≠ [] := by
  show (scanSign (ch :: input)).1 ++ (scanDigits (scanSign (ch :: input)).2).1 ≠ []
  rw [scanSign]
  split
  · exact cons_ne_nil _ _
  rename_i hsign
  have hdigit : sexpIsdigit ch = true := by
    obtain hminus | hplus | hdigit := hch
    · exact absurd (Or.inr hminus) hsign
    · exact absurd (Or.inl hplus) hsign
    · exact hdigit
  unfold scanDigits
  rw [takeWhile_cons, if_pos hdigit]
  exact cons_ne_nil _ _

end Scan

/-! ## Strings are read -/

variable {code : ℕ} {input rest : List UInt8}

theorem decodeUseq_spec {count result : ℕ}
    (hdecode : decodeUseq count input result = (some code, rest)) :
    ∃ digits, input = digits ++ rest ∧ digits.length = count ∧
      (∀ ch ∈ digits, sexpIsxdigit ch = true) ∧
      code = digits.foldl (fun result ch => (result <<< 4) + (digitValue ch).toNat) result := by
  induction count generalizing input result with
  | zero =>
    obtain ⟨hcode, hrest⟩ := Prod.mk.inj hdecode
    exact ⟨[], hrest, rfl, fun ch hch => absurd hch not_mem_nil, (Option.some.inj hcode).symm⟩
  | succ count ih =>
    cases input with
    | nil => exact absurd (Prod.mk.inj hdecode).1.symm (Option.some_ne_none code)
    | cons ch input =>
      rw [decodeUseq] at hdecode
      split at hdecode
      · rename_i hxdigit
        obtain ⟨digits, hinput, hlength, hdigits, hcode⟩ := ih hdecode
        refine ⟨ch :: digits, by rw [hinput]; rfl, by rw [length_cons, hlength], ?_, hcode⟩
        intro d hd
        obtain rfl | hd := mem_cons.mp hd
        · exact hxdigit
        · exact hdigits d hd
      · exact absurd (Prod.mk.inj hdecode).1.symm (Option.some_ne_none code)

theorem isUseq_of_decodeUseq (hdecode : decodeUseq 4 input 0 = (some code, rest)) :
    ∃ digits, input = digits ++ rest ∧ IsUseq digits code := by
  obtain ⟨digits, hinput, hlength, hdigits, hcode⟩ := decodeUseq_spec hdecode
  exact ⟨digits, hinput, hlength, hdigits, hcode⟩

theorem readUnicodeEscape_spec (hread : readUnicodeEscape input = .ok (code, rest))
    {w bytes : List UInt8} (hw : StringBody w bytes) {rest' : List UInt8}
    (hrest : rest = w ++ rest') :
    ∃ w', input = w' ++ rest' ∧
      StringBody (backslash :: byte 'u' :: w') (encodeCode code ++ bytes) := by
  subst hrest
  unfold readUnicodeEscape at hread
  split at hread
  · exact absurd hread (by simp)
  rename_i utfchar input' hdecode
  obtain ⟨digits, hinput, hdigits⟩ := isUseq_of_decodeUseq hdecode
  split at hread
  · rename_i hhigh
    split at hread
    · rename_i b₁ b₂ rest
      split at hread
      · rename_i hescape
        split at hread
        · exact absurd hread (by simp)
        rename_i utfchar2 rest'' hdecode'
        obtain ⟨digits', hrest, hdigits'⟩ := isUseq_of_decodeUseq hdecode'
        split at hread
        · rename_i hlow
          obtain ⟨rfl, rfl⟩ := Prod.mk.inj (Except.ok.inj hread)
          refine ⟨digits ++ backslash :: byte 'u' :: digits' ++ w, ?_,
            .pair hdigits hdigits' hhigh hlow hw⟩
          rw [hinput, hescape.1, hescape.2, hrest]
          simp only [append_assoc, cons_append]
        · exact absurd hread (by simp)
      · rename_i hescape
        obtain ⟨rfl, hrest⟩ := Prod.mk.inj (Except.ok.inj hread)
        refine ⟨digits ++ w, by rw [hinput, hrest, append_assoc], .unicode hdigits ?_ hw⟩
        rintro ⟨-, hpre⟩
        have hpre' := hpre.trans (prefix_append w rest')
        rw [← hrest, cons_prefix_cons, cons_prefix_cons] at hpre'
        exact hescape ⟨hpre'.1.symm, hpre'.2.1.symm⟩
    · rename_i hshort
      obtain ⟨rfl, hrest⟩ := Prod.mk.inj (Except.ok.inj hread)
      refine ⟨digits ++ w, by rw [hinput, hrest, append_assoc], .unicode hdigits ?_ hw⟩
      rintro ⟨-, hpre⟩
      obtain ⟨tail, htail⟩ := hpre.trans (prefix_append w rest')
      exact hshort backslash (byte 'u') tail (hrest.trans htail.symm)
  · rename_i hhigh
    obtain ⟨rfl, hrest⟩ := Prod.mk.inj (Except.ok.inj hread)
    exact ⟨digits ++ w, by rw [hinput, hrest, append_assoc],
      .unicode hdigits (fun hlone => hhigh hlone.1) hw⟩

/-- What is read is the body of a string. -/
theorem jsonReadString_spec {fuel : ℕ} {buf bytes : List UInt8}
    (hread : jsonReadString fuel input buf = .ok (bytes, rest)) :
    ∃ w bytes', input = w ++ rest ∧ bytes = buf ++ bytes' ∧ StringBody w bytes' := by
  induction fuel generalizing input buf with
  | zero => exact absurd hread (by simp [jsonReadString])
  | succ fuel ih =>
    cases input with
    | nil => exact absurd hread (by simp [jsonReadString])
    | cons ch input =>
      rw [jsonReadString.eq_def] at hread
      simp only at hread
      split at hread
      · rename_i hquote
        obtain ⟨rfl, rfl⟩ := Prod.mk.inj (Except.ok.inj hread)
        exact ⟨[ch], [], rfl, (append_nil _).symm, hquote ▸ .close⟩
      · rename_i hquote
        split at hread
        · exact absurd hread (by simp)
        split at hread
        · rename_i hbackslash
          subst hbackslash
          cases input with
          | nil =>
            -- behind the end of the file there is no quotation mark
            cases fuel with
            | zero => exact absurd hread (by simp [jsonReadString])
            | succ fuel => exact absurd hread (by simp [jsonReadString])
          | cons ch input =>
            simp only at hread
            split at hread
            · rename_i hn
              obtain ⟨w, bytes', rfl, rfl, hw⟩ := ih hread
              refine ⟨backslash :: ch :: w, 10 :: bytes', rfl, append_assoc _ _ _, ?_⟩
              exact hn ▸ .newline hw
            · rename_i hn
              split at hread
              · rename_i ht
                obtain ⟨w, bytes', rfl, rfl, hw⟩ := ih hread
                refine ⟨backslash :: ch :: w, 9 :: bytes', rfl, append_assoc _ _ _, ?_⟩
                exact ht ▸ .tab hw
              · rename_i ht
                split at hread
                · rename_i hu
                  cases hescape : readUnicodeEscape input with
                  | error e => exact absurd hread (by simp [hescape, bind, Except.bind])
                  | ok result =>
                    obtain ⟨code, input'⟩ := result
                    rw [hescape] at hread
                    obtain ⟨w, bytes', hinput', rfl, hw⟩ := ih hread
                    obtain ⟨w', rfl, hw'⟩ := readUnicodeEscape_spec hescape hw hinput'
                    exact ⟨backslash :: ch :: w', encodeCode code ++ bytes', rfl,
                      append_assoc _ _ _, hu ▸ hw'⟩
                · rename_i hu
                  obtain ⟨w, bytes', rfl, rfl, hw⟩ := ih hread
                  refine ⟨backslash :: ch :: w, ch :: bytes', rfl, append_assoc _ _ _,
                    .other ?_ hw⟩
                  simp only [mem_cons, not_mem_nil, hn, ht, hu, or_self, not_false_eq_true]
        · rename_i hbackslash
          obtain ⟨w, bytes', rfl, rfl, hw⟩ := ih hread
          exact ⟨ch :: w, ch :: bytes', rfl, append_assoc _ _ _,
            .plain hquote hbackslash hw⟩

/-! ## Values are read -/

theorem jsonReadLiteral_spec (name input : List UInt8) :
    ∃ letters, input = letters ++ jsonReadLiteral name input ∧ letters.length ≤ name.length := by
  induction name generalizing input with
  | nil => exact ⟨[], rfl, le_refl _⟩
  | cons c name ih =>
    cases input with
    | nil =>
      obtain ⟨letters, hletters, hlength⟩ := ih []
      refine ⟨letters, hletters, hlength.trans (Nat.le_succ _)⟩
    | cons ch input =>
      obtain ⟨letters, hletters, hlength⟩ := ih input
      exact ⟨ch :: letters, congrArg (ch :: ·) hletters, Nat.succ_le_succ hlength⟩

/-- What a call reads: some space and a value, or the rest of an array or of an object. -/
structure Sound (fuel : ℕ) : Prop where
  read : ∀ {input rest : List UInt8} {v : Datum}, jsonRead fuel input = .ok (v, rest) →
    ∃ s w, input = s ++ w ++ rest ∧ IsSpace s ∧ Value readerGrammar w v
  array : ∀ {input rest : List UInt8} {comma : Bool} {res : List Datum} {v : Datum},
    (comma = false → res ≠ []) → jsonReadArray fuel input comma res = .ok (v, rest) →
    ∃ w elems, input = w ++ rest ∧ v = .vector (res.reverse ++ elems) ∧
      (Elements readerGrammar comma w elems ∨
        (comma = true ∧ res = [] ∧ elems = [] ∧ ∃ s, IsSpace s ∧ w = s ++ [byte ']']))
  object : ∀ {input rest : List UInt8} {comma : Bool} {res : List (Datum × Datum)} {v : Datum},
    (comma = false → res ≠ []) → jsonReadObject fuel input comma res = .ok (v, rest) →
    ∃ w members, input = w ++ rest ∧ v = .list (res.reverse ++ members) ∧
      (Members readerGrammar comma w members ∨
        (comma = true ∧ res = [] ∧ members = [] ∧ ∃ s, IsSpace s ∧ w = s ++ [byte '}']))

end ChibiScheme.Json
