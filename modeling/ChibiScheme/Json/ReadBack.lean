import ChibiScheme.Json.Grammar
import ChibiScheme.Json.Writer

/-!
# Reading the text of a JSON value

What the reader makes of the text of a value: characters one by one, numbers up to the next character
that is no part of them, and arrays and objects by induction on the value.
-/

namespace ChibiScheme.Json

open List

/-! ## What is read back -/

/-- A character that the writer escapes and the reader does not know. -/
def IsLost (c : Char) : Prop :=
  c.toNat = 8 ∨ c.toNat = 12 ∨ c.toNat = 13

/-- The character that the reader makes of a character. -/
def readChar (c : Char) : Char :=
  if c.toNat = 8 then 'b'
  else if c.toNat = 12 then 'f'
  else if c.toNat = 13 then 'r'
  else c

/-- The text of an integer. -/
def numberText (n : ℤ) : NumberText where
  sign := if n < 0 then [byte '-'] else []
  integer := numeralText hexDigit 10 n.natAbs
  fraction := none
  exponent := none

namespace JsonValue

mutual

/-- The object that the reader makes of the text of a value. -/
def readBack : JsonValue → Datum
  | boolean b => .boolean b
  | null => .symbol (byte 'n' :: ull)
  | fixnum n => (numberText n.val).datum
  | string cs => .string (encodeString (cs.map readChar))
  | vector elems => .vector (readBacks elems)
  | object members => .list (readBackMembers members)

/-- The elements as they are read back. -/
def readBacks : List JsonValue → List Datum
  | [] => []
  | elem :: rest => elem.readBack :: readBacks rest

/-- The members as they are read back. -/
def readBackMembers : List (List Char × JsonValue) → List (Datum × Datum)
  | [] => []
  | (key, val) :: rest =>
    (.symbol (encodeString (key.map readChar)), val.readBack) :: readBackMembers rest

end

end JsonValue

/-! ## Strings are read back -/

theorem decodeUseq_hexDigit {count d : ℕ} (hd : d < 16) (input : List UInt8) (result : ℕ) :
    decodeUseq (count + 1) (hexDigit d :: input) result =
      decodeUseq count input (result * 16 + d) := by
  obtain ⟨hxdigit, hvalue⟩ := hexDigit_names d hd
  rw [decodeUseq, if_pos hxdigit, hvalue, Nat.shiftLeft_eq]
  rfl

theorem decodeUseq_hex4 {n : ℕ} (hlt : n < 65536) (rest : List UInt8) :
    decodeUseq 4 (hex4 n ++ rest) 0 = (some n, rest) := by
  simp only [hex4, cons_append, nil_append]
  rw [decodeUseq_hexDigit (by omega), decodeUseq_hexDigit (by omega),
    decodeUseq_hexDigit (by omega), decodeUseq_hexDigit (by omega), decodeUseq]
  simp only [Prod.mk.injEq, Option.some.injEq, and_true]
  omega

theorem readUnicodeEscape_hex4 {n : ℕ} (hlt : n < 65536) (hhigh : ¬ IsHigh n) (rest : List UInt8) :
    readUnicodeEscape (hex4 n ++ rest) = .ok (n, rest) := by
  unfold readUnicodeEscape
  rw [decodeUseq_hex4 hlt]
  exact if_neg hhigh

theorem readUnicodeEscape_pair {high low : ℕ} (hhigh : IsHigh high) (hlow : IsLow low)
    (rest : List UInt8) :
    readUnicodeEscape (hex4 high ++ backslash :: byte 'u' :: (hex4 low ++ rest)) =
      .ok (combine high low, rest) := by
  unfold IsHigh at hhigh
  unfold IsLow at hlow
  unfold readUnicodeEscape
  rw [decodeUseq_hex4 (by omega)]
  simp only
  rw [if_pos hhigh, if_pos ⟨trivial, trivial⟩, decodeUseq_hex4 (by omega)]
  exact if_pos hlow

theorem combine_surrogates {c : ℕ} (hlow : 0xFFFF < c) (hlt : c < 0x110000) :
    combine (0xD7C0 + (c >>> 10)) (0xDC00 + (c &&& 0x3FF)) = c := by
  unfold combine
  rw [and_ten, Nat.shiftRight_eq_div_pow]
  have hor : ((0xD7C0 + c / 2 ^ 10 - 0xD800) <<< 10) ||| (0xDC00 + c % 1024 - 0xDC00) =
      (0xD7C0 + c / 2 ^ 10 - 0xD800) * 1024 + c % 1024 := by
    rw [Nat.add_sub_cancel_left, ← Nat.shiftLeft_add_eq_or_of_lt (by omega), Nat.shiftLeft_eq]
  rw [hor]
  omega

theorem not_isHigh_char (c : Char) : ¬ IsHigh c.toNat := by
  rintro ⟨hle, hge⟩
  obtain hlow | ⟨hhigh, -⟩ := c.valid
  · change c.toNat < 0xd800 at hlow
    omega
  · change 0xdfff < c.toNat at hhigh
    omega

variable {fuel : ℕ} {ch : UInt8}

variable {buf : List UInt8}

theorem jsonReadString_plain (hquote : ch ≠ quotationMark) (hbackslash : ch ≠ backslash)
    (input : List UInt8) (hbuf : buf.length + 4 < 2 ^ 31) :
    jsonReadString (fuel + 1) (ch :: input) buf = jsonReadString fuel input (buf ++ [ch]) := by
  rw [jsonReadString.eq_def]
  simp only
  rw [if_neg hquote, if_neg (not_le.mpr hbuf), if_neg hbackslash]

theorem jsonReadString_other (hch : ch ∉ [byte 'n', byte 't', byte 'u']) (input : List UInt8)
    (hbuf : buf.length + 4 < 2 ^ 31) :
    jsonReadString (fuel + 1) (backslash :: ch :: input) buf =
      jsonReadString fuel input (buf ++ [ch]) := by
  simp only [mem_cons, not_mem_nil, or_false, not_or] at hch
  rw [jsonReadString.eq_def]
  simp only
  rw [if_neg (by decide), if_neg (not_le.mpr hbuf), if_pos trivial, if_neg hch.1, if_neg hch.2.1,
    if_neg hch.2.2]

variable {rest : List UInt8}

theorem jsonReadString_unicode {code : ℕ} {input : List UInt8}
    (hread : readUnicodeEscape input = .ok (code, rest)) (hbuf : buf.length + 4 < 2 ^ 31) :
    jsonReadString (fuel + 1) (backslash :: byte 'u' :: input) buf =
      jsonReadString fuel rest (buf ++ encodeCode code) := by
  rw [jsonReadString.eq_def]
  simp only
  rw [if_neg (by decide), if_neg (not_le.mpr hbuf), if_pos trivial, if_neg (by decide),
    if_neg (by decide), if_pos trivial, hread]
  rfl

theorem encodeChar_ascii {c : Char} (hlt : c.toNat < 0x80) : encodeChar c = [UInt8.ofNat c.toNat] := by
  unfold encodeChar sexpUtf8CharByteCount
  rw [if_pos hlt]
  rfl

theorem readChar_eq {c : Char} (hlost : ¬ IsLost c) : readChar c = c := by
  unfold IsLost at hlost
  unfold readChar
  rw [if_neg (by omega), if_neg (by omega), if_neg (by omega)]

theorem encodeChar_lost {c : Char} (hlost : IsLost c) :
    (readChar c = 'b' ∨ readChar c = 'f' ∨ readChar c = 'r') ∧
      encodeChar c = [UInt8.ofNat c.toNat] := by
  unfold IsLost at hlost
  refine ⟨?_, encodeChar_ascii (by omega)⟩
  unfold readChar
  repeat' split
  · exact .inl rfl
  · exact .inr (.inl rfl)
  · exact .inr (.inr rfl)
  · omega

theorem length_encodeChar_readChar (c : Char) :
    (encodeChar (readChar c)).length = (encodeChar c).length := by
  by_cases hlost : IsLost c
  · obtain ⟨hread, hencode⟩ := encodeChar_lost hlost
    rw [hencode]
    obtain hread | hread | hread := hread
    all_goals
      rw [hread]
      rfl
  · rw [readChar_eq hlost]

theorem jsonReadString_newline (input : List UInt8) (hbuf : buf.length + 4 < 2 ^ 31) :
    jsonReadString (fuel + 1) (backslash :: byte 'n' :: input) buf =
      jsonReadString fuel input (buf ++ [10]) := by
  rw [jsonReadString.eq_def]
  simp only
  rw [if_neg (by decide), if_neg (not_le.mpr hbuf), if_pos trivial, if_pos trivial]

theorem jsonReadString_tab (input : List UInt8) (hbuf : buf.length + 4 < 2 ^ 31) :
    jsonReadString (fuel + 1) (backslash :: byte 't' :: input) buf =
      jsonReadString fuel input (buf ++ [9]) := by
  rw [jsonReadString.eq_def]
  simp only
  rw [if_neg (by decide), if_neg (not_le.mpr hbuf), if_pos trivial, if_neg (by decide),
    if_pos trivial]

theorem jsonReadString_escapeText (c : Char) (rest : List UInt8) (hbuf : buf.length + 4 < 2 ^ 31) :
    jsonReadString (fuel + 1) (escapeText c ++ rest) buf =
      jsonReadString fuel rest (buf ++ encodeChar (readChar c)) := by
  have hlt := char_toNat_lt c
  unfold escapeText
  split
  · -- an ASCII character
    rename_i hascii
    have hkept : ∀ {n : ℕ}, c.toNat = n → n ≠ 8 → n ≠ 12 → n ≠ 13 →
        encodeChar (readChar c) = [UInt8.ofNat n] := by
      intro n hc h8 h12 h13
      have hread : readChar c = c := readChar_eq (by unfold IsLost; omega)
      rw [hread, encodeChar_ascii (by omega), hc]
    split
    · rename_i hch
      rw [hkept hch (by omega) (by omega) (by omega)]
      exact jsonReadString_other (by decide) rest hbuf
    · -- then the letters for control characters, one by one
      rename_i hbackslash
      split
      · rename_i hch
        rw [hkept hch (by omega) (by omega) (by omega)]
        exact jsonReadString_other (by decide) rest hbuf
      · rename_i hquote
        split
        · rename_i hch
          have hread : readChar c = 'b' := if_pos hch
          rw [hread]
          exact jsonReadString_other (by decide) rest hbuf
        · rename_i h8
          split
          · rename_i hch
            have hread : readChar c = 'f' := by
              unfold readChar
              rw [if_neg h8, if_pos hch]
            rw [hread]
            exact jsonReadString_other (by decide) rest hbuf
          · rename_i h12
            split
            · rename_i hch
              rw [hkept hch (by omega) (by omega) (by omega)]
              exact jsonReadString_newline rest hbuf
            · split
              · rename_i hch
                have hread : readChar c = 'r' := by
                  unfold readChar
                  rw [if_neg h8, if_neg h12, if_pos hch]
                rw [hread]
                exact jsonReadString_other (by decide) rest hbuf
              · rename_i h13
                split
                · rename_i hch
                  rw [hkept hch (by omega) (by omega) (by omega)]
                  exact jsonReadString_tab rest hbuf
                · rw [hkept rfl h8 h12 h13]
                  have hne : ∀ b : UInt8, c.toNat ≠ b.toNat → UInt8.ofNat c.toNat ≠ b := by
                    intro b hb heq
                    apply hb
                    rw [← heq, UInt8.toNat_ofNat']
                    omega
                  exact jsonReadString_plain (hne quotationMark hquote) (hne backslash hbackslash)
                    rest hbuf
  · rename_i hascii
    have hread : readChar c = c := readChar_eq (by unfold IsLost; omega)
    rw [hread]
    split
    · -- one escape
      simp only [cons_append]
      exact jsonReadString_unicode
        (readUnicodeEscape_hex4 (by omega) (not_isHigh_char c) rest) hbuf
    · -- two surrogates
      rename_i hhigh
      have hcombine := combine_surrogates (c := c.toNat) (by omega) hlt
      have hhigh' : IsHigh (0xD7C0 + (c.toNat >>> 10)) := by
        unfold IsHigh
        rw [Nat.shiftRight_eq_div_pow]
        omega
      have hlow' : IsLow (0xDC00 + (c.toNat &&& 0x3FF)) := by
        unfold IsLow
        rw [and_ten]
        omega
      have hescape := readUnicodeEscape_pair hhigh' hlow' rest
      rw [hcombine] at hescape
      simp only [cons_append, append_assoc]
      exact jsonReadString_unicode hescape hbuf

theorem jsonReadString_stringText (cs : List Char) (hfuel : cs.length < fuel) (rest : List UInt8)
    (hbuf : buf.length + (encodeString cs).length + 4 ≤ 2 ^ 31) :
    jsonReadString fuel (cs.flatMap escapeText ++ quotationMark :: rest) buf =
      .ok (buf ++ encodeString (cs.map readChar), rest) := by
  induction cs generalizing fuel buf with
  | nil =>
    obtain ⟨fuel, rfl⟩ : ∃ k, fuel = k + 1 := ⟨fuel - 1, by simp at hfuel; omega⟩
    rw [jsonReadString.eq_def]
    simp only [flatMap_nil, nil_append, map_nil]
    rw [if_pos trivial, show encodeString [] = [] from rfl, append_nil]
  | cons c cs ih =>
    obtain ⟨fuel, rfl⟩ : ∃ k, fuel = k + 1 := ⟨fuel - 1, by simp at hfuel; omega⟩
    simp only [length_cons] at hfuel
    have hpos := length_encodeChar_pos c
    rw [encodeString_cons, length_append] at hbuf
    rw [flatMap_cons, append_assoc, jsonReadString_escapeText c _ (by omega), ih (by omega) ?_,
      map_cons, encodeString_cons, append_assoc]
    rw [length_append, length_encodeChar_readChar]
    omega

/-! ## Numbers are read back -/

/-- A number ends here. -/
def NumberEnds (rest : List UInt8) : Prop :=
  ∀ ch ∈ rest.head?, sexpIsdigit ch = false ∧ ch ≠ byte '.' ∧ ch ≠ byte 'e' ∧ ch ≠ byte 'E'

theorem sexpIsdigit_hexDigit : ∀ d < 10, sexpIsdigit (hexDigit d) = true := by
  decide

theorem isDigits_numeralText (n : ℕ) : NumberText.IsDigits (numeralText hexDigit 10 n) := by
  intro ch hch
  unfold numeralText at hch
  split at hch
  · rw [mem_singleton.mp hch]
    exact sexpIsdigit_hexDigit 0 (by omega)
  · obtain ⟨d, hd, rfl⟩ := mem_map.mp hch
    exact sexpIsdigit_hexDigit d (Nat.digits_lt_base (by omega) (mem_reverse.mp hd))

theorem scanDigits_append {digits : List UInt8} (hdigits : NumberText.IsDigits digits)
    (hends : NumberEnds rest) : scanDigits (digits ++ rest) = (digits, rest) := by
  have hrest : rest.takeWhile sexpIsdigit = [] ∧ rest.dropWhile sexpIsdigit = rest := by
    cases rest with
    | nil => exact ⟨rfl, rfl⟩
    | cons ch rest =>
      have hch := (hends ch rfl).1
      exact ⟨takeWhile_cons_of_neg (by rw [hch]; exact Bool.false_ne_true),
        dropWhile_cons_of_neg (by rw [hch]; exact Bool.false_ne_true)⟩
  unfold scanDigits
  rw [takeWhile_append_of_pos hdigits, dropWhile_append_of_pos hdigits, hrest.1, hrest.2,
    append_nil]

theorem scanFraction_ends (hends : NumberEnds rest) : scanFraction rest = (none, rest) := by
  cases rest with
  | nil => rfl
  | cons ch rest =>
    rw [scanFraction]
    exact if_neg (hends ch rfl).2.1

theorem scanExponent_ends (hends : NumberEnds rest) : scanExponent rest = (none, rest) := by
  cases rest with
  | nil => rfl
  | cons ch rest =>
    rw [scanExponent]
    exact if_neg (fun hch => hch.elim (hends ch rfl).2.2.1 (hends ch rfl).2.2.2)

theorem scanSign_numeralText (n : ℕ) (rest : List UInt8) :
    scanSign (numeralText hexDigit 10 n ++ rest) = ([], numeralText hexDigit 10 n ++ rest) := by
  have hne := @numeralText_ne_nil hexDigit 10 n
  cases htext : numeralText hexDigit 10 n with
  | nil => exact absurd htext hne
  | cons ch text =>
    have hdigit := isDigits_numeralText n ch (by rw [htext]; exact mem_cons_self)
    rw [cons_append, scanSign]
    refine if_neg ?_
    rintro (rfl | rfl)
    · exact absurd hdigit (by decide)
    · exact absurd hdigit (by decide)

theorem scanNumber_decimalText (n : ℤ) (hends : NumberEnds rest) :
    scanNumber (decimalText n ++ rest) = (numberText n, rest) := by
  have hsign : scanSign (decimalText n ++ rest) =
      ((numberText n).sign, numeralText hexDigit 10 n.natAbs ++ rest) := by
    unfold decimalText numberText
    split
    · rfl
    · exact scanSign_numeralText n.natAbs rest
  unfold scanNumber
  simp only [hsign, scanDigits_append (isDigits_numeralText n.natAbs) hends,
    scanFraction_ends hends, scanExponent_ends hends]
  rfl

/-! ## Values are read back -/

/-- A value can start with the byte. -/
def StartsValue (ch : UInt8) : Prop :=
  isspace ch = false ∧ ch ≠ byte ']' ∧ ch ≠ byte '}' ∧ ch ≠ byte ','

theorem startsValue_digit (hdigit : sexpIsdigit ch = true) : StartsValue ch := by
  have htable : ∀ n < 256, sexpIsdigit (UInt8.ofNat n) = true →
      isspace (UInt8.ofNat n) = false ∧ UInt8.ofNat n ≠ byte ']' ∧ UInt8.ofNat n ≠ byte '}' ∧
        UInt8.ofNat n ≠ byte ',' := by
    decide +kernel
  have hch := htable ch.toNat ch.toNat_lt (by rwa [UInt8.ofNat_toNat])
  rwa [UInt8.ofNat_toNat] at hch

theorem decimalText_start (n : ℤ) :
    ∃ ch rest, decimalText n = ch :: rest ∧ (ch = byte '-' ∨ sexpIsdigit ch = true) := by
  have hne := @numeralText_ne_nil hexDigit 10 n.natAbs
  unfold decimalText
  split
  · exact ⟨byte '-', _, rfl, .inl rfl⟩
  cases htext : numeralText hexDigit 10 n.natAbs with
  | nil => exact absurd htext hne
  | cons ch rest =>
    refine ⟨ch, rest, rfl, .inr (isDigits_numeralText n.natAbs ch ?_)⟩
    rw [htext]
    exact mem_cons_self

theorem text_start (j : JsonValue) : ∃ ch rest, j.text = ch :: rest ∧ StartsValue ch := by
  cases j with
  | boolean b =>
    cases b with
    | false => exact ⟨_, _, rfl, by unfold StartsValue; decide⟩
    | true => exact ⟨_, _, rfl, by unfold StartsValue; decide⟩
  | null => exact ⟨_, _, rfl, by unfold StartsValue; decide⟩
  | fixnum n =>
    obtain ⟨ch, rest, htext, hch⟩ := decimalText_start n.val
    refine ⟨ch, rest, htext, ?_⟩
    obtain rfl | hdigit := hch
    · unfold StartsValue
      decide
    · exact startsValue_digit hdigit
  | string cs => exact ⟨_, _, rfl, by unfold StartsValue; decide⟩
  | vector elems => exact ⟨_, _, rfl, by unfold StartsValue; decide⟩
  | object members => exact ⟨_, _, rfl, by unfold StartsValue; decide⟩

section Steps

variable {fuel : ℕ} {ch : UInt8} {input : List UInt8} {comma : Bool}

theorem dropWhile_isspace (hspace : isspace ch = false) :
    (ch :: input).dropWhile isspace = ch :: input :=
  dropWhile_cons_of_neg (by rw [hspace]; exact Bool.false_ne_true)

theorem length_le_flatMap_escapeText (cs : List Char) :
    cs.length ≤ (cs.flatMap escapeText).length := by
  have hpos : ∀ c : Char, 0 < (escapeText c).length := by
    intro c
    unfold escapeText
    repeat' split
    all_goals exact Nat.succ_pos _
  induction cs with
  | nil => exact le_refl _
  | cons c cs ih =>
    rw [flatMap_cons, length_append, length_cons]
    have hc := hpos c
    omega

theorem jsonRead_string (cs : List Char) (hsized : (encodeString cs).length + 4 ≤ 2 ^ 31)
    (hfuel : 0 < fuel) (rest : List UInt8) :
    jsonRead fuel (stringText cs ++ rest) = .ok (.string (encodeString (cs.map readChar)), rest) := by
  obtain ⟨fuel, rfl⟩ : ∃ k, fuel = k + 1 := ⟨fuel - 1, by omega⟩
  have hlength : cs.length < (cs.flatMap escapeText ++ quotationMark :: rest).length + 1 := by
    rw [length_append]
    have hle := length_le_flatMap_escapeText cs
    omega
  have hbuf : ([] : List UInt8).length + (encodeString cs).length + 4 ≤ 2 ^ 31 := by
    rwa [length_nil, Nat.zero_add]
  have hread := jsonReadString_stringText cs hlength rest hbuf
  have htext : stringText cs ++ rest =
      quotationMark :: (cs.flatMap escapeText ++ quotationMark :: rest) := by
    simp only [stringText, cons_append, append_assoc, nil_append]
  rw [htext, jsonRead, dropWhile_isspace (by decide)]
  simp only
  rw [if_neg (by decide), if_neg (by decide), if_pos trivial, hread]
  rfl

theorem jsonRead_number (n : ℤ) (hfuel : 0 < fuel) {rest : List UInt8} (hends : NumberEnds rest) :
    jsonRead fuel (decimalText n ++ rest) = .ok ((numberText n).datum, rest) := by
  obtain ⟨fuel, rfl⟩ : ∃ k, fuel = k + 1 := ⟨fuel - 1, by omega⟩
  obtain ⟨ch, text, htext, hch⟩ := decimalText_start n
  have hscan := scanNumber_decimalText n hends
  rw [htext, cons_append] at hscan ⊢
  have hspace : isspace ch = false := by
    obtain rfl | hdigit := hch
    · decide
    · exact (startsValue_digit hdigit).1
  have hne : ch ≠ byte '{' ∧ ch ≠ byte '[' ∧ ch ≠ quotationMark := by
    refine ⟨?_, ?_, ?_⟩
    all_goals
      rintro rfl
      exact absurd hch (by decide)
  rw [jsonRead, dropWhile_isspace hspace]
  simp only
  rw [if_neg hne.1, if_neg hne.2.1, if_neg hne.2.2, if_pos (hch.imp_right .inr), jsonReadNumber, hscan]

variable {res : List Datum}

theorem jsonReadArray_value (hch : StartsValue ch) :
    jsonReadArray (fuel + 1) (ch :: input) true res =
      (jsonRead fuel (ch :: input) >>= fun (tmp, input) =>
        jsonReadArray fuel input false (tmp :: res)) := by
  rw [jsonReadArray, if_neg hch.2.1, if_neg (fun hcomma => hch.2.2.2 hcomma.1), if_neg hch.2.2.2,
    if_pos (by rw [hch.1]; exact Bool.false_ne_true), if_pos rfl]

theorem jsonReadArray_comma :
    jsonReadArray (fuel + 1) (byte ',' :: input) false res = jsonReadArray fuel input true res := by
  rw [jsonReadArray, if_neg (by decide), if_neg (by decide), if_pos rfl]

theorem jsonReadArray_close (hstate : comma = false ∨ res = []) :
    jsonReadArray (fuel + 1) (byte ']' :: input) comma res = .ok (.vector res.reverse, input) := by
  rw [jsonReadArray, if_pos rfl, if_neg]
  rintro ⟨hcomma, hres⟩
  obtain hfalse | hnil := hstate
  · exact Bool.false_ne_true (hfalse.symm.trans hcomma)
  · exact hres (by rw [hnil]; rfl)

theorem jsonReadObject_member {res : List (Datum × Datum)} {key value : Datum}
    {afterKey afterValue : List UInt8} (hch : StartsValue ch)
    (hkey : jsonRead fuel (ch :: input) = .ok (key, byte ':' :: afterKey))
    (hvalue : jsonRead fuel afterKey = .ok (value, afterValue)) :
    jsonReadObject (fuel + 1) (ch :: input) true res =
      jsonReadObject fuel afterValue false ((stringToKey key, value) :: res) := by
  rw [jsonReadObject, if_neg hch.2.2.1, if_neg (fun hcomma => hch.2.2.2 hcomma.1),
    if_neg hch.2.2.2, if_pos (by rw [hch.1]; exact Bool.false_ne_true), if_pos rfl, hkey]
  simp only [bind, Except.bind, dropWhile_isspace (show isspace (byte ':') = false by decide)]
  rw [if_neg (not_not.mpr rfl), hvalue]

theorem jsonReadObject_comma {res : List (Datum × Datum)} :
    jsonReadObject (fuel + 1) (byte ',' :: input) false res = jsonReadObject fuel input true res := by
  rw [jsonReadObject, if_neg (by decide), if_neg (by decide), if_pos rfl]

theorem jsonReadObject_close {res : List (Datum × Datum)} (hstate : comma = false ∨ res = []) :
    jsonReadObject (fuel + 1) (byte '}' :: input) comma res = .ok (.list res.reverse, input) := by
  rw [jsonReadObject, if_pos rfl, if_neg]
  rintro ⟨hcomma, hres⟩
  obtain hfalse | hnil := hstate
  · exact Bool.false_ne_true (hfalse.symm.trans hcomma)
  · exact hres (by rw [hnil]; rfl)

theorem jsonRead_literal {l : List UInt8 × List UInt8 × Datum} (hl : l ∈ literals)
    (hch : ch ∈ l.1) (rest : List UInt8) :
    jsonRead (fuel + 1) (ch :: l.2.1 ++ rest) = .ok (l.2.2, rest) := by
  simp only [literals, mem_cons, not_mem_nil, or_false] at hl
  obtain rfl | rfl | rfl := hl
  all_goals
    simp only [mem_cons, not_mem_nil, or_false] at hch
    obtain rfl | rfl := hch
    all_goals rfl

theorem jsonRead_array (rest : List UInt8) :
    jsonRead (fuel + 1) (byte '[' :: rest) = jsonReadArray fuel rest true [] := by
  rw [jsonRead, dropWhile_isspace (by decide)]
  simp only
  rw [if_neg (by decide), if_pos trivial]

theorem jsonRead_object (rest : List UInt8) :
    jsonRead (fuel + 1) (byte '{' :: rest) = jsonReadObject fuel rest true [] := by
  rw [jsonRead, dropWhile_isspace (by decide)]
  simp only
  rw [if_pos trivial]

end Steps

theorem numberEnds_of_close (hch : ch = byte ']' ∨ ch = byte '}' ∨ ch = byte ',')
    (rest : List UInt8) : NumberEnds (ch :: rest) := by
  intro d hd
  obtain rfl := Option.some.inj hd
  obtain rfl | rfl | rfl := hch
  all_goals decide

mutual

theorem jsonRead_text : ∀ (j : JsonValue) {fuel : ℕ} {rest : List UInt8}, j.Sized →
    NumberEnds rest → 2 * (j.text ++ rest).length < fuel →
    jsonRead fuel (j.text ++ rest) = .ok (j.readBack, rest)
  | .boolean false, fuel, rest, _, _, hfuel => by
    obtain ⟨fuel, rfl⟩ : ∃ k, fuel = k + 1 := ⟨fuel - 1, by omega⟩
    exact jsonRead_literal (l := literals[2]) (by simp [literals]) (by decide) rest
  | .boolean true, fuel, rest, _, _, hfuel => by
    obtain ⟨fuel, rfl⟩ : ∃ k, fuel = k + 1 := ⟨fuel - 1, by omega⟩
    exact jsonRead_literal (l := literals[1]) (by simp [literals]) (by decide) rest
  | .null, fuel, rest, _, _, hfuel => by
    obtain ⟨fuel, rfl⟩ : ∃ k, fuel = k + 1 := ⟨fuel - 1, by omega⟩
    exact jsonRead_literal (l := literals[0]) (by simp [literals]) (by decide) rest
  | .fixnum n, _, _, _, hends, hfuel => jsonRead_number n.val (by omega) hends
  | .string cs, _, rest, hsized, _, hfuel => jsonRead_string cs hsized (by omega) rest
  | .vector elems, fuel, rest, hsized, _, hfuel => by
    obtain ⟨fuel, rfl⟩ : ∃ k, fuel = k + 1 := ⟨fuel - 1, by omega⟩
    have htext : (JsonValue.vector elems).text ++ rest =
        byte '[' :: (JsonValue.elemsText elems ++ byte ']' :: rest) := by
      simp only [JsonValue.text, cons_append, append_assoc, nil_append]
    rw [htext, length_cons] at hfuel
    rw [htext, jsonRead_array, jsonReadArray_elemsText elems hsized.2 (.inr rfl) (by omega)]
    rfl
  | .object members, fuel, rest, hsized, _, hfuel => by
    obtain ⟨fuel, rfl⟩ : ∃ k, fuel = k + 1 := ⟨fuel - 1, by omega⟩
    have htext : (JsonValue.object members).text ++ rest =
        byte '{' :: (JsonValue.membersText members ++ byte '}' :: rest) := by
      simp only [JsonValue.text, cons_append, append_assoc, nil_append]
    rw [htext, length_cons] at hfuel
    rw [htext, jsonRead_object, jsonReadObject_membersText members hsized (.inr rfl) (by omega)]
    rfl

theorem jsonReadArray_elemsText : ∀ (elems : List JsonValue) {fuel : ℕ} {rest : List UInt8}
    {res : List Datum}, JsonValue.SizedElems elems → (elems ≠ [] ∨ res = []) →
    2 * (JsonValue.elemsText elems ++ byte ']' :: rest).length + 1 < fuel →
    jsonReadArray fuel (JsonValue.elemsText elems ++ byte ']' :: rest) true res =
      .ok (.vector (res.reverse ++ JsonValue.readBacks elems), rest)
  | [], fuel, rest, res, _, hstate, hfuel => by
    obtain ⟨fuel, rfl⟩ : ∃ k, fuel = k + 1 := ⟨fuel - 1, by omega⟩
    have hres : res = [] := hstate.resolve_left (not_not.mpr rfl)
    rw [JsonValue.elemsText, nil_append, jsonReadArray_close (.inr hres),
      JsonValue.readBacks, append_nil]
  | [elem], fuel, rest, res, hsized, _, hfuel => by
    obtain ⟨ch, text, htext, hch⟩ := text_start elem
    rw [JsonValue.elemsText, length_append, length_cons] at hfuel
    obtain ⟨fuel, rfl⟩ : ∃ k, fuel = k + 2 := ⟨fuel - 2, by omega⟩
    have hread := @jsonRead_text elem (fuel + 1) _ hsized.1
      (numberEnds_of_close (.inl rfl) rest) (by rw [length_append, length_cons]; omega)
    rw [JsonValue.elemsText]
    rw [htext, cons_append] at hread ⊢
    rw [jsonReadArray_value hch, hread]
    show jsonReadArray (fuel + 1) (byte ']' :: rest) false (elem.readBack :: res) = _
    rw [jsonReadArray_close (.inl rfl), reverse_cons]
    rfl
  | elem :: next :: others, fuel, rest, res, hsized, _, hfuel => by
    obtain ⟨ch, text, htext, hch⟩ := text_start elem
    have hsplit : JsonValue.elemsText (elem :: next :: others) ++ byte ']' :: rest =
        elem.text ++ byte ',' :: (JsonValue.elemsText (next :: others) ++ byte ']' :: rest) := by
      rw [JsonValue.elemsText, append_assoc]
      rfl
    rw [hsplit, length_append, length_cons] at hfuel
    obtain ⟨fuel, rfl⟩ : ∃ k, fuel = k + 2 := ⟨fuel - 2, by omega⟩
    have hlength : 0 < elem.text.length := by
      rw [htext]
      exact Nat.succ_pos _
    have hread := @jsonRead_text elem (fuel + 1) _ hsized.1
      (numberEnds_of_close (.inr (.inr rfl))
        (JsonValue.elemsText (next :: others) ++ byte ']' :: rest))
      (by rw [length_append, length_cons]; omega)
    rw [hsplit]
    rw [htext, cons_append] at hread ⊢
    rw [jsonReadArray_value hch, hread]
    show jsonReadArray (fuel + 1) (byte ',' :: _) false (elem.readBack :: res) = _
    rw [jsonReadArray_comma, jsonReadArray_elemsText (next :: others) hsized.2
      (.inl (cons_ne_nil _ _)) (by omega), reverse_cons, append_assoc]
    rfl

theorem jsonReadObject_membersText : ∀ (members : List (List Char × JsonValue)) {fuel : ℕ}
    {rest : List UInt8} {res : List (Datum × Datum)}, JsonValue.SizedMembers members →
    (members ≠ [] ∨ res = []) →
    2 * (JsonValue.membersText members ++ byte '}' :: rest).length + 1 < fuel →
    jsonReadObject fuel (JsonValue.membersText members ++ byte '}' :: rest) true res =
      .ok (.list (res.reverse ++ JsonValue.readBackMembers members), rest)
  | [], fuel, rest, res, _, hstate, hfuel => by
    obtain ⟨fuel, rfl⟩ : ∃ k, fuel = k + 1 := ⟨fuel - 1, by omega⟩
    have hres : res = [] := hstate.resolve_left (not_not.mpr rfl)
    rw [JsonValue.membersText, nil_append, jsonReadObject_close (.inr hres),
      JsonValue.readBackMembers, append_nil]
  | [(key, val)], fuel, rest, res, hsized, _, hfuel => by
    have hsplit : JsonValue.membersText [(key, val)] ++ byte '}' :: rest =
        stringText key ++ byte ':' :: (val.text ++ byte '}' :: rest) := by
      rw [JsonValue.membersText, append_assoc]
      rfl
    rw [hsplit, length_append, length_cons] at hfuel
    obtain ⟨fuel, rfl⟩ : ∃ k, fuel = k + 2 := ⟨fuel - 2, by omega⟩
    have hkey := @jsonRead_string (fuel + 1) key hsized.1 (Nat.succ_pos _)
      (byte ':' :: (val.text ++ byte '}' :: rest))
    have hval := @jsonRead_text val (fuel + 1) _ hsized.2.1
      (numberEnds_of_close (.inr (.inl rfl)) rest) (by omega)
    rw [hsplit]
    rw [stringText, cons_append, cons_append] at hkey ⊢
    rw [jsonReadObject_member (by unfold StartsValue; decide) hkey hval,
      jsonReadObject_close (.inl rfl), reverse_cons]
    rfl
  | (key, val) :: next :: others, fuel, rest, res, hsized, _, hfuel => by
    have hsplit : JsonValue.membersText ((key, val) :: next :: others) ++ byte '}' :: rest =
        stringText key ++ byte ':' :: (val.text ++ byte ',' ::
          (JsonValue.membersText (next :: others) ++ byte '}' :: rest)) := by
      rw [JsonValue.membersText]
      simp only [append_assoc, cons_append]
    rw [hsplit, length_append, length_cons, length_append, length_cons] at hfuel
    obtain ⟨fuel, rfl⟩ : ∃ k, fuel = k + 2 := ⟨fuel - 2, by omega⟩
    have hkey := @jsonRead_string (fuel + 1) key hsized.1 (Nat.succ_pos _)
      (byte ':' :: (val.text ++ byte ',' ::
        (JsonValue.membersText (next :: others) ++ byte '}' :: rest)))
    have hval := @jsonRead_text val (fuel + 1) _ hsized.2.1
      (numberEnds_of_close (.inr (.inr rfl))
        (JsonValue.membersText (next :: others) ++ byte '}' :: rest))
      (by rw [length_append, length_cons]; omega)
    rw [hsplit]
    rw [stringText, cons_append, cons_append] at hkey ⊢
    rw [jsonReadObject_member (by unfold StartsValue; decide) hkey hval, jsonReadObject_comma,
      jsonReadObject_membersText (next :: others) hsized.2.2 (.inl (cons_ne_nil _ _)) (by omega),
      reverse_cons, append_assoc]
    rfl

end

end ChibiScheme.Json
