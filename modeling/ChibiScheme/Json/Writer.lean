import ChibiScheme.Json.Reader
import ChibiScheme.Text.StringIndex
import ChibiScheme.Writer.Numeral

/-!
# The JSON writer

The functions of `json.c` that write an object.  The text of a flonum is that of `snprintf`, so the
function that writes one is a parameter.
-/

namespace ChibiScheme.Json

/-- Why a datum is not written. -/
inductive WriteError where
  | exception (message : String)
  | undefined
deriving DecidableEq

/-- `snprintf` of a number below `0x10000` with `%04lX`. -/
def hex4 (n : ℕ) : List UInt8 :=
  [hexDigit (n / 4096 % 16), hexDigit (n / 256 % 16), hexDigit (n / 16 % 16), hexDigit (n % 16)]

/-- The body of the loop of `json_write_string`. -/
def charText (ch : ℕ) : Except WriteError (List UInt8) :=
  if ch < 0x7F then
    if ch = 0x5C then .ok [backslash, backslash]
    else if ch = 0x22 then .ok [backslash, quotationMark]
    else if ch = 8 then .ok [backslash, byte 'b']
    else if ch = 12 then .ok [backslash, byte 'f']
    else if ch = 10 then .ok [backslash, byte 'n']
    else if ch = 13 then .ok [backslash, byte 'r']
    else if ch = 9 then .ok [backslash, byte 't']
    else .ok [UInt8.ofNat ch]
  else if ch ≤ 0xFFFF then .ok (backslash :: byte 'u' :: hex4 ch)
  else
    -- surrogate pair
    let chh := 0xD800 - (0x10000 >>> 10) + (ch >>> 10)
    let chl := 0xDC00 + (ch &&& 0x3FF)
    if chh > 0xFFFF ∨ chl > 0xFFFF then .error (.exception "unable to encode string")
    else .ok (backslash :: byte 'u' :: hex4 chh ++ backslash :: byte 'u' :: hex4 chl)

/-- The loop of `json_write_string`, from the cursor `i` on. -/
def writeStringLoop (obj : List UInt8) : ℕ → ℕ → Except WriteError (List UInt8)
  | 0, _ => .error .undefined
  | fuel + 1, i =>
    if i < obj.length then
      match sexpStringUtf8Ref obj i, byteAt obj i with
      | some (.ok ch), some b => do
          let text ← charText ch
          let rest ← writeStringLoop obj fuel (i + sexpUtf8InitialByteCount b)
          .ok (text ++ rest)
      | _, _ => .error .undefined
    else .ok []

/-- `json_write_string` -/
def jsonWriteString (obj : List UInt8) : Except WriteError (List UInt8) := do
  let text ← writeStringLoop obj (obj.length + 1) 0
  .ok (quotationMark :: text ++ [quotationMark])

section

variable (jsonWriteFlonum : NumberText → Except WriteError (List UInt8))

mutual

/-- `json_write` -/
def jsonWrite : Datum → Except WriteError (List UInt8)
  | .symbol name => .ok (sexpWriteSymbol name)
  | .string bytes => jsonWriteString bytes
  | .list members => do
      let text ← jsonWriteMembers members
      .ok (byte '{' :: text ++ [byte '}'])
  | .vector elems => do
      let text ← jsonWriteElems ((elems.length : ℤ).bmod (2 ^ 32)).toNat elems
      .ok (byte '[' :: text ++ [byte ']'])
  | .fixnum n => .ok (decimalText n.val)
  | .flonum t => jsonWriteFlonum t
  | .boolean false => .ok (byte 'f' :: alse)
  | .boolean true => .ok (byte 't' :: rue)

/-- The loop of `json_write_array`; that many elements are left for the `int` that the length of the
vector is converted to. -/
def jsonWriteElems : ℕ → List Datum → Except WriteError (List UInt8)
  | _, [] => .ok []
  | 0, _ => .ok []
  | len + 1, obj :: rest => do
      let text ← jsonWrite obj
      if 0 < len then do
        let texts ← jsonWriteElems len rest
        .ok (text ++ byte ',' :: texts)
      else .ok text

/-- The loop of `json_write_object`. -/
def jsonWriteMembers : List (Datum × Datum) → Except WriteError (List UInt8)
  | [] => .ok []
  | (key, val) :: rest => do
      let keyText ← match key with
        | .symbol name => jsonWriteString name
        | _ => .error (.exception "unable to encode key: not a symbol")
      let text ← jsonWrite val
      match rest with
      | [] => .ok (keyText ++ byte ':' :: text)
      | next :: rest => do
          let texts ← jsonWriteMembers (next :: rest)
          .ok (keyText ++ byte ':' :: text ++ byte ',' :: texts)

end

end

/-! ## Texts of JSON values

The values that a text can stand for, and the text that the writer makes of each. -/

open List

/-! ## Values -/

/-- The values that a text can stand for. -/
inductive JsonValue where
  | boolean (b : Bool)
  | null
  | fixnum (n : Fixnum)
  | string (cs : List Char)
  | vector (elems : List JsonValue)
  | object (members : List (List Char × JsonValue))

namespace JsonValue

mutual

/-- The datum of a value. -/
def datum : JsonValue → Datum
  | boolean b => .boolean b
  | null => .symbol (byte 'n' :: ull)
  | fixnum n => .fixnum n
  | string cs => .string (encodeString cs)
  | vector elems => .vector (datums elems)
  | object members => .list (datumMembers members)

/-- The data of the elements. -/
def datums : List JsonValue → List Datum
  | [] => []
  | elem :: rest => elem.datum :: datums rest

/-- The data of the members. -/
def datumMembers : List (List Char × JsonValue) → List (Datum × Datum)
  | [] => []
  | (key, val) :: rest => (.symbol (encodeString key), val.datum) :: datumMembers rest

end

theorem length_datums (elems : List JsonValue) : (datums elems).length = elems.length := by
  induction elems with
  | nil => rfl
  | cons elem rest ih =>
    rw [datums, length_cons, length_cons, ih]

mutual

/-- Strings and vectors are not too long for the `int`s that count their bytes and elements. -/
def Sized : JsonValue → Prop
  | boolean _ => True
  | null => True
  | fixnum _ => True
  | string cs => (encodeString cs).length + 4 ≤ 2 ^ 31
  | vector elems => elems.length < 2 ^ 31 ∧ SizedElems elems
  | object members => SizedMembers members

/-- Each element is counted by an `int`. -/
def SizedElems : List JsonValue → Prop
  | [] => True
  | elem :: rest => elem.Sized ∧ SizedElems rest

/-- Each member is counted by an `int`. -/
def SizedMembers : List (List Char × JsonValue) → Prop
  | [] => True
  | (key, val) :: rest => (encodeString key).length + 4 ≤ 2 ^ 31 ∧ val.Sized ∧ SizedMembers rest

end

end JsonValue

/-! ## Characters -/

/-- A character in a string. -/
def escapeText (c : Char) : List UInt8 :=
  if c.toNat < 0x7F then
    if c.toNat = 0x5C then [backslash, backslash]
    else if c.toNat = 0x22 then [backslash, quotationMark]
    else if c.toNat = 8 then [backslash, byte 'b']
    else if c.toNat = 12 then [backslash, byte 'f']
    else if c.toNat = 10 then [backslash, byte 'n']
    else if c.toNat = 13 then [backslash, byte 'r']
    else if c.toNat = 9 then [backslash, byte 't']
    else [UInt8.ofNat c.toNat]
  else if c.toNat ≤ 0xFFFF then backslash :: byte 'u' :: hex4 c.toNat
  else
    backslash :: byte 'u' :: hex4 (0xD7C0 + (c.toNat >>> 10)) ++
      backslash :: byte 'u' :: hex4 (0xDC00 + (c.toNat &&& 0x3FF))

theorem and_ten (n : ℕ) : n &&& 0x3FF = n % 1024 := Nat.and_two_pow_sub_one_eq_mod n 10

theorem charText_eq (c : Char) : charText c.toNat = .ok (escapeText c) := by
  have hlt := char_toNat_lt c
  have hhigh : ¬ (0xD800 - (0x10000 >>> 10) + (c.toNat >>> 10) > 0xFFFF ∨
      0xDC00 + (c.toNat &&& 0x3FF) > 0xFFFF) := by
    rw [and_ten, Nat.shiftRight_eq_div_pow, Nat.shiftRight_eq_div_pow]
    omega
  unfold charText escapeText
  rw [if_neg hhigh]
  repeat' split
  all_goals rfl

/-- The text of a string. -/
def stringText (cs : List Char) : List UInt8 :=
  quotationMark :: cs.flatMap escapeText ++ [quotationMark]

/-- The loop writes the escaped characters that are left. -/
theorem writeStringLoop_spec (before after : List Char) {fuel : ℕ}
    (hfuel : after.length < fuel) :
    writeStringLoop (encodeString (before ++ after)) fuel (encodeString before).length =
      .ok (after.flatMap escapeText) := by
  induction after generalizing before fuel with
  | nil =>
    obtain ⟨fuel, rfl⟩ : ∃ k, fuel = k + 1 := ⟨fuel - 1, by simp at hfuel; omega⟩
    rw [writeStringLoop, append_nil, if_neg (lt_irrefl _)]
    rfl
  | cons c after ih =>
    obtain ⟨fuel, rfl⟩ : ∃ k, fuel = k + 1 := ⟨fuel - 1, by simp at hfuel; omega⟩
    have hsplit : encodeString (before ++ c :: after) =
        encodeString before ++ (encodeChar c ++ encodeString after) := by
      rw [encodeString_append, encodeString_cons]
    obtain ⟨b, hb, hcount⟩ := byteAt_lead (encodeString before) c (encodeString after)
    have hlt : (encodeString before).length < (encodeString (before ++ c :: after)).length := by
      rw [hsplit, length_append, length_append]
      have hpos := length_encodeChar_pos c
      omega
    have hnext : (encodeString before).length + (encodeChar c).length =
        (encodeString (before ++ [c])).length := by
      rw [encodeString_append, encodeString_cons, length_append, length_append]
      rfl
    have hshort : after.length < fuel := by
      simp only [length_cons] at hfuel
      omega
    have hrest := ih (before ++ [c]) hshort
    rw [append_assoc, singleton_append] at hrest
    rw [writeStringLoop, if_pos hlt, hsplit, sexpStringUtf8Ref_shape (encodeChar_shape c), hb,
      ← hsplit]
    simp only [charText_eq, hcount, hnext, hrest]
    rfl

theorem jsonWriteString_eq (cs : List Char) :
    jsonWriteString (encodeString cs) = .ok (stringText cs) := by
  have hlength : cs.length ≤ (encodeString cs).length := by
    induction cs with
    | nil => exact le_refl _
    | cons c cs ih =>
      rw [encodeString_cons, length_append, length_cons]
      have hpos := length_encodeChar_pos c
      omega
  have hloop := writeStringLoop_spec [] cs (Nat.lt_succ_of_le hlength)
  unfold jsonWriteString
  rw [nil_append] at hloop
  change writeStringLoop (encodeString cs) _ 0 = _ at hloop
  rw [hloop]
  rfl

/-! ## Values are written -/

namespace JsonValue

mutual

/-- The text of a value. -/
def text : JsonValue → List UInt8
  | boolean false => byte 'f' :: alse
  | boolean true => byte 't' :: rue
  | null => byte 'n' :: ull
  | fixnum n => decimalText n.val
  | string cs => stringText cs
  | vector elems => byte '[' :: elemsText elems ++ [byte ']']
  | object members => byte '{' :: membersText members ++ [byte '}']

/-- The text of the elements. -/
def elemsText : List JsonValue → List UInt8
  | [] => []
  | elem :: rest =>
    match rest with
    | [] => elem.text
    | next :: rest => elem.text ++ byte ',' :: elemsText (next :: rest)

/-- The text of the members. -/
def membersText : List (List Char × JsonValue) → List UInt8
  | [] => []
  | (key, val) :: rest =>
    match rest with
    | [] => stringText key ++ byte ':' :: val.text
    | next :: rest => stringText key ++ byte ':' :: val.text ++ byte ',' :: membersText (next :: rest)

end

end JsonValue

section

variable (jsonWriteFlonum : NumberText → Except WriteError (List UInt8))

mutual

theorem jsonWrite_datum :
    ∀ j : JsonValue, j.Sized → jsonWrite jsonWriteFlonum j.datum = .ok j.text
  | .boolean false, _ => rfl
  | .boolean true, _ => rfl
  | .null, _ => by
    rw [JsonValue.datum, jsonWrite, JsonValue.text]
    exact congrArg Except.ok (by decide)
  | .fixnum n, _ => rfl
  | .string cs, _ => jsonWriteString_eq cs
  | .vector elems, hsized => by
    obtain ⟨hlength, helems⟩ := hsized
    have hlen : ((JsonValue.datums elems).length : ℤ).bmod (2 ^ 32) = elems.length := by
      rw [JsonValue.length_datums]
      exact Int.bmod_eq_of_le (by omega) (by omega)
    rw [JsonValue.datum, jsonWrite, hlen, Int.toNat_natCast, jsonWriteElems_datums elems helems]
    rfl
  | .object members, hsized => by
    rw [JsonValue.datum, jsonWrite, jsonWriteMembers_datumMembers members hsized]
    rfl

theorem jsonWriteElems_datums : ∀ elems : List JsonValue, JsonValue.SizedElems elems →
    jsonWriteElems jsonWriteFlonum elems.length (JsonValue.datums elems) =
      .ok (JsonValue.elemsText elems)
  | [], _ => rfl
  | [elem], hsized => by
    rw [JsonValue.datums, JsonValue.datums, length_singleton, jsonWriteElems,
      jsonWrite_datum elem hsized.1]
    rfl
  | elem :: next :: rest, hsized => by
    have hrest := jsonWriteElems_datums (next :: rest) hsized.2
    rw [JsonValue.datums, length_cons] at hrest
    rw [JsonValue.datums, JsonValue.datums, length_cons, length_cons, jsonWriteElems,
      jsonWrite_datum elem hsized.1]
    simp only [bind, Except.bind, hrest, Nat.succ_pos, if_true]
    rfl

theorem jsonWriteMembers_datumMembers : ∀ members : List (List Char × JsonValue),
    JsonValue.SizedMembers members →
    jsonWriteMembers jsonWriteFlonum (JsonValue.datumMembers members) =
      .ok (JsonValue.membersText members)
  | [], _ => rfl
  | [(key, val)], hsized => by
    rw [JsonValue.datumMembers, JsonValue.datumMembers, jsonWriteMembers,
      jsonWrite_datum val hsized.2.1, jsonWriteString_eq]
    rfl
  | (key, val) :: next :: rest, hsized => by
    have hrest := jsonWriteMembers_datumMembers (next :: rest) hsized.2.2
    obtain ⟨key', val'⟩ := next
    rw [JsonValue.datumMembers] at hrest
    rw [JsonValue.datumMembers, JsonValue.datumMembers, jsonWriteMembers,
      jsonWrite_datum val hsized.2.1, jsonWriteString_eq]
    simp only [bind, Except.bind, hrest]
    rfl

end

end

end ChibiScheme.Json
