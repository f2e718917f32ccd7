import ChibiScheme.Lib.Rounding
import ChibiScheme.Reader.Number
import ChibiScheme.Text.Utf8

/-!
# The JSON reader

The functions of `json.c` that read a text: numbers, strings, literals, arrays and objects.  The text
is the list of bytes that the port has left; a character that is pushed back is at its front again.

A call that takes part in a recursion has some fuel, and `unfinished` is the result if it is used up.
-/

namespace ChibiScheme.Json

/-! ## Objects -/

/-- What follows the `e` of a number. -/
structure Exponent where
  marker : UInt8
  sign : List UInt8
  digits : List UInt8
deriving DecidableEq

/-- The parts of a number. -/
structure NumberText where
  sign : List UInt8
  integer : List UInt8
  fraction : Option (List UInt8)
  exponent : Option Exponent
deriving DecidableEq

/-- The objects that are read and written.  An inexact number is given by the characters that it is
computed from, a list is an association list. -/
inductive Datum where
  | symbol (name : List UInt8)
  | boolean (b : Bool)
  | fixnum (n : Fixnum)
  | flonum (t : NumberText)
  | string (bytes : List UInt8)
  | vector (elems : List Datum)
  | list (members : List (Datum × Datum))

/-- Why a text is not read. -/
inductive ReadError where
  | exception (message : String)
  | unfinished
  /-- an `int` of the code would have to be `2 ^ 31` or more -/
  | overflow
deriving DecidableEq

/-! ## Characters -/

/-- `"` -/
def quotationMark : UInt8 := 0x22

/-- `\` -/
def backslash : UInt8 := 0x5C

/-- `isspace` -/
def isspace (c : UInt8) : Bool :=
  decide (c = 32 ∨ (9 ≤ c ∧ c ≤ 13))

/-- `decode_useq`: the value, or none for `-1`, and what is left of the text. -/
def decodeUseq : ℕ → List UInt8 → ℕ → Option ℕ × List UInt8
  | 0, input, result => (some result, input)
  | _ + 1, [], _ => (none, [])
  | count + 1, ch :: input, result =>
    if sexpIsxdigit ch then decodeUseq count input ((result <<< 4) + (digitValue ch).toNat)
    else (none, ch :: input)

/-! ## Numbers -/

/-- The result of an operation on two doubles whose exact value is a natural number. -/
def toDouble (n : ℕ) : ℕ :=
  Rounding.round 53 n

/-- `res = res * 10 + ch - '0'` for the digits of a number. -/
def readDigits (digits : List UInt8) : ℕ :=
  digits.foldl (fun res ch => toDouble (toDouble (toDouble (res * 10) + ch.toNat) - 48)) 0

/-- The sign at the front, and the rest. -/
def scanSign : List UInt8 → List UInt8 × List UInt8
  | [] => ([], [])
  | ch :: input => if ch = byte '+' ∨ ch = byte '-' then ([ch], input) else ([], ch :: input)

/-- The digits at the front, and the rest. -/
def scanDigits (input : List UInt8) : List UInt8 × List UInt8 :=
  (input.takeWhile sexpIsdigit, input.dropWhile sexpIsdigit)

/-- The fraction at the front, and the rest. -/
def scanFraction : List UInt8 → Option (List UInt8) × List UInt8
  | [] => (none, [])
  | ch :: input =>
    if ch = byte '.' then
      let (digits, input) := scanDigits input
      (some digits, input)
    else (none, ch :: input)

/-- The exponent at the front, and the rest. -/
def scanExponent : List UInt8 → Option Exponent × List UInt8
  | [] => (none, [])
  | ch :: input =>
    if ch = byte 'e' ∨ ch = byte 'E' then
      let (sign, input) := scanSign input
      let (digits, input) := scanDigits input
      (some ⟨ch, sign, digits⟩, input)
    else (none, ch :: input)

/-- The number at the front, and the rest. -/
def scanNumber (input : List UInt8) : NumberText × List UInt8 :=
  let (sign, input) := scanSign input
  let (integer, input) := scanDigits input
  let (fraction, input) := scanFraction input
  let (exponent, input) := scanExponent input
  (⟨sign, integer, fraction, exponent⟩, input)

/-- The number that the characters stand for: `inexactp || fabs(res) > (double)SEXP_MAX_FIXNUM` makes a
flonum. -/
def NumberText.datum (t : NumberText) : Datum :=
  let res := readDigits t.integer
  if t.fraction.isSome ∨ t.exponent.isSome ∨ res > toDouble sexpMaxFixnum.toNat then .flonum t
  else .fixnum (sexpMakeFixnum (if t.sign = [byte '-'] then -(res : ℤ) else res))

/-- `json_read_number` -/
def jsonReadNumber (input : List UInt8) : Datum × List UInt8 :=
  let (t, input) := scanNumber input
  (t.datum, input)

/-! ## Literals and strings -/

/-- The name `null` behind its first letter. -/
def ull : List UInt8 := [byte 'u', byte 'l', byte 'l']

/-- The name `true` behind its first letter. -/
def rue : List UInt8 := [byte 'r', byte 'u', byte 'e']

/-- The name `false` behind its first letter. -/
def alse : List UInt8 := [byte 'a', byte 'l', byte 's', byte 'e']

/-- `json_read_literal`: a character is read for each one that the name has left.  The exception that is
made for one that differs is not returned. -/
def jsonReadLiteral : List UInt8 → List UInt8 → List UInt8
  | [], input => input
  | _ :: name, [] => jsonReadLiteral name []
  | _ :: name, _ :: input => jsonReadLiteral name input

/-- What `json_read_string` does behind `\u`: the character, and what is left of the text. -/
def readUnicodeEscape (input : List UInt8) : Except ReadError (ℕ × List UInt8) :=
  match decodeUseq 4 input 0 with
  | (none, _) => .error (.exception "invalid \\u sequence")
  | (some utfchar, input) =>
    if 0xD800 ≤ utfchar ∧ utfchar ≤ 0xDBFF then
      match input with
      | b₁ :: b₂ :: rest =>
        if b₁ = backslash ∧ b₂ = byte 'u' then
          match decodeUseq 4 rest 0 with
          | (none, _) => .error (.exception "invalid \\u sequence")
          | (some utfchar2, rest) =>
            if 0xDC00 ≤ utfchar2 ∧ utfchar2 ≤ 0xDFFF then
              .ok (0x10000 + (((utfchar - 0xD800) <<< 10) ||| (utfchar2 - 0xDC00)), rest)
            else .error (.exception "invalid \\u sequence")
        else .ok (utfchar, b₁ :: b₂ :: rest)
      | input => .ok (utfchar, input)
    else .ok (utfchar, input)

/-- The bytes of a character in the buffer. -/
def encodeCode (utfchar : ℕ) : List UInt8 :=
  sexpUtf8EncodeChar (sexpUtf8CharByteCount utfchar) utfchar

/-- The loop of `json_read_string`: the bytes of the string, and what is left of the text.  The number
`i` of bytes in the buffer is an `int`, to which 4 is added before a character is stored. -/
def jsonReadString : ℕ → List UInt8 → List UInt8 → Except ReadError (List UInt8 × List UInt8)
  | 0, _, _ => .error .unfinished
  | _ + 1, [], _ => .error (.exception "unterminated string in json")
  | fuel + 1, ch :: input, buf =>
    if ch = quotationMark then .ok (buf, input)
    else if 2 ^ 31 ≤ buf.length + 4 then .error .overflow
    else if ch = backslash then
      match input with
      -- the end of the file is stored as a character
      | [] => jsonReadString fuel [] (buf ++ [0xFF])
      | ch :: input =>
        if ch = byte 'n' then jsonReadString fuel input (buf ++ [10])
        else if ch = byte 't' then jsonReadString fuel input (buf ++ [9])
        else if ch = byte 'u' then do
          let (utfchar, input) ← readUnicodeEscape input
          jsonReadString fuel input (buf ++ encodeCode utfchar)
        else jsonReadString fuel input (buf ++ [ch])
    else jsonReadString fuel input (buf ++ [ch])

/-! ## Arrays and objects -/

/-- A key is read as a symbol. -/
def stringToKey : Datum → Datum
  | .string bytes => .symbol bytes
  | key => key

mutual

/-- `json_read_array`: `comma` says that a value may follow, `res` has the elements, the last first. -/
def jsonReadArray : ℕ → List UInt8 → Bool → List Datum → Except ReadError (Datum × List UInt8)
  | 0, _, _, _ => .error .unfinished
  | _ + 1, [], _, _ => .error (.exception "unterminated array in json")
  | fuel + 1, ch :: input, comma, res =>
    if ch = byte ']' then
      if comma ∧ res.length ≠ 0 then
        .error (.exception "missing value after comma in json")
      else .ok (.vector res.reverse, input)
    else if ch = byte ',' ∧ comma then .error (.exception "unexpected comma in json array")
    else if ch = byte ',' then jsonReadArray fuel input true res
    else if ¬ isspace ch then
      if comma then do
        let (tmp, input) ← jsonRead fuel (ch :: input)
        jsonReadArray fuel input false (tmp :: res)
      else .error (.exception "unexpected value in json array")
    else jsonReadArray fuel input comma res

/-- `json_read_object` -/
def jsonReadObject : ℕ → List UInt8 → Bool → List (Datum × Datum) →
    Except ReadError (Datum × List UInt8)
  | 0, _, _, _ => .error .unfinished
  | _ + 1, [], _, _ => .error (.exception "unterminated object in json")
  | fuel + 1, ch :: input, comma, res =>
    if ch = byte '}' then
      if comma ∧ res.length ≠ 0 then
        .error (.exception "missing value after comma in json object")
      else .ok (.list res.reverse, input)
    else if ch = byte ',' ∧ comma then .error (.exception "unexpected comma in json object")
    else if ch = byte ',' then jsonReadObject fuel input true res
    else if ¬ isspace ch then
      if comma then do
        let (key, input) ← jsonRead fuel (ch :: input)
        match input.dropWhile isspace with
        | [] => .error (.exception "missing colon in json object")
        | ch :: input =>
          if ch ≠ byte ':' then .error (.exception "missing colon in json object")
          else do
            let (value, input) ← jsonRead fuel input
            jsonReadObject fuel input false ((stringToKey key, value) :: res)
      else .error (.exception "unexpected value in json object")
    else jsonReadObject fuel input comma res

/-- `json_read` -/
def jsonRead : ℕ → List UInt8 → Except ReadError (Datum × List UInt8)
  | 0, _ => .error .unfinished
  | fuel + 1, input =>
    match input.dropWhile isspace with
    | [] => .error (.exception "unexpected character in json")
    | ch :: input =>
      if ch = byte '{' then jsonReadObject fuel input true []
      else if ch = byte '[' then jsonReadArray fuel input true []
      else if ch = quotationMark then do
        let (bytes, input) ← jsonReadString (input.length + 1) input []
        .ok (.string bytes, input)
      else if ch = byte '-' ∨ ch = byte '+' ∨ sexpIsdigit ch then
        .ok (jsonReadNumber (ch :: input))
      else if ch = byte 'n' ∨ ch = byte 'N' then
        .ok (.symbol (byte 'n' :: ull), jsonReadLiteral ull input)
      else if ch = byte 't' ∨ ch = byte 'T' then
        .ok (.boolean true, jsonReadLiteral rue input)
      else if ch = byte 'f' ∨ ch = byte 'F' then
        .ok (.boolean false, jsonReadLiteral alse input)
      else if ch = byte '}' then .error (.exception "unexpected closing brace in json")
      else if ch = byte ']' then .error (.exception "unexpected closing bracket in json")
      else .error (.exception "unexpected character in json")

end

/-- `sexp_json_read`; the fuel is enough. -/
def sexpJsonRead (input : List UInt8) : Except ReadError (Datum × List UInt8) :=
  jsonRead (2 * input.length + 1) input

end ChibiScheme.Json
