import ChibiScheme.Numeric.Tower
import ChibiScheme.Text.Huffman

/-!
# Reading numbers

`sexp_read_number` and `sexp_read_bignum`: the characters of an exact number are taken one by one
into a fixnum until the next digit would leave the fixnum range, and from there on into a bignum.

The port is the list of the characters that are still to come; pushing a character back puts it in
front again.  A loop of the source that holds the current character in a variable is a function of
the list that starts with that character.
-/

namespace ChibiScheme

open Stateful

/-- The port and the heap. -/
structure ReadState (F : Type) where
  input : List UInt8
  heap : Heap F

/-- A routine of the reader.  It has no result where C's behaviour is undefined. -/
abbrev ReadM (F : Type) := StateT (ReadState F) Option

/-- A character of the source text. -/
abbrev byte (c : Char) : UInt8 := UInt8.ofNat c.toNat

section

variable {F : Type}

/-- A routine on the heap. -/
def onHeap {α : Type} (routine : NumM F α) : ReadM F α := fun s =>
  (routine s.heap).map fun (result, heap) => (result, { s with heap := heap })

/-- The input. -/
def getInput : ReadM F (List UInt8) := fun s => some (s.input, s)

/-- A new input. -/
def setInput (input : List UInt8) : ReadM F Unit := fun s => some ((), { s with input := input })

/-- `sexp_read_error` -/
def readError (message : String) : ReadM F Val := pure (.exception message)

end

/-! ## Characters -/

/-- `sexp_tolower` of ASCII. -/
def sexpTolower (c : UInt8) : UInt8 :=
  if byte 'A' ≤ c ∧ c ≤ byte 'Z' then c + 32 else c

/-- `sexp_isdigit` -/
def sexpIsdigit (c : UInt8) : Bool :=
  decide (byte '0' ≤ c ∧ c ≤ byte '9')

/-- `sexp_isxdigit` -/
def sexpIsxdigit (c : UInt8) : Bool :=
  sexpIsdigit c || decide (byte 'a' ≤ sexpTolower c ∧ sexpTolower c ≤ byte 'f')

/-- `digit_value` -/
def digitValue (c : UInt8) : ℤ :=
  if c ≤ byte '9' then c.toNat - 48 else (sexpTolower c).toNat - 97 + 10

/-- `is_precision_indicator` -/
def isPrecisionIndicator (c : UInt8) : Bool :=
  decide (sexpTolower c ∈ [byte 'd', byte 'e', byte 'f', byte 'l', byte 's'])

/-- `c == EOF || sexp_is_separator(c)`, of the character in front of the port. -/
def atDelimiter : List UInt8 → Bool
  | [] => true
  | c :: _ => sexpIsSeparator c.toNat

/-! ## Digits -/

/-- A digit of the base. -/
def isDigitOf (base : ℤ) (c : UInt8) : Bool :=
  sexpIsxdigit c && decide (0 ≤ digitValue c ∧ digitValue c < base)

/-- How the digit loop of `sexp_read_number` ends: at a character that is no digit, or with the
digit at which the value leaves the fixnum range pushed back. -/
inductive Scan where
  | stop (val tmp : ℤ) (rest : List UInt8)
  | overflow (val : ℤ) (rest : List UInt8)
  deriving DecidableEq

/-- The digit loop of `sexp_read_number`.  The product wraps only where the first test of the
source is true already. -/
def scanDigits (base : ℤ) : ℤ → ℤ → List UInt8 → Scan
  | val, tmp, [] => .stop val tmp []
  | val, tmp, c :: rest =>
    if isDigitOf base c then
      let tmp := val * base + digitValue c
      if sexpMaxFixnum / base < val ∨ tmp < val ∨ sexpMaxFixnum < tmp then
        .overflow val (c :: rest)
      else scanDigits base tmp tmp rest
    else .stop val tmp (c :: rest)

/-- The digit loop of `sexp_read_bignum`. -/
def bignumDigits (base : ℤ) : Bignum → List UInt8 → Bignum × List UInt8
  | res, [] => (res, [])
  | res, c :: rest =>
    if isDigitOf base c then
      let product := sexpBignumFxmul (some res) res (UInt64.ofInt base) 0
      bignumDigits base (sexpBignumFxadd product (UInt64.ofInt (digitValue c))) rest
    else (res, c :: rest)

/-- `SEXP_INIT_BIGNUM_SIZE` -/
def sexpInitBignumSize : ℕ := 2

/-! ## Inexact and complex syntax

The ends of a literal that lead to floating point or to complex numbers.  They are not modelled
further: a literal of an exact rational never gets there. -/

/-- The routines that read on after the integer part of other numbers. -/
structure NumberTails (F : Type) where
  /-- `sexp_read_float_tail` -/
  floatTail : F → Bool → ReadM F Val
  /-- `sexp_read_complex_tail` -/
  complexTail : Val → ReadM F Val
  /-- `sexp_read_polar_tail` -/
  polarTail : Val → ReadM F Val
  /-- an exponent in an exact literal -/
  exactExponent : Val → ReadM F Val
  /-- an exponent after the digits of a bignum -/
  bignumExponent : Bignum → ReadM F Val
  /-- a complex number where the denominator is expected -/
  complexDenominator : Val → Val → ReadM F Val
  /-- `sexp_ratio_normalize` of a ratio whose denominator is not an exact integer -/
  strayDenominator : Val → ReadM F Val
  /-- `sexp_exact_to_inexact` -/
  exactToInexact : Val → NumM F Val

section Reading

variable {F : Type} (flo : FlonumOps F) (tower : Arith F) (tails : NumberTails F)

/-- `sexp_bignum_normalize(res)` of a new bignum. -/
def allocNormalized (b : Bignum) : NumM F Val :=
  allocInt (sexpBignumNormalize b)

/-- `sexp_make_ratio` and `sexp_ratio_normalize`. -/
def makeNormalizedRatio (num den : Val) : NumM F Val := do
  let rat ← sexpMakeRatio num den
  sexpRatioNormalize flo tower rat

/-- `sexp_read_bignum`, with the routine that reads the number after a slash. -/
def sexpReadBignum (readNumber : ReadM F Val) (init : ℤ) (sign : Sign) (base : ℤ) :
    ReadM F Val := do
  let start := ((sexpMakeBignum sexpInitBignumSize).withSign sign).setDigit 0 (UInt64.ofInt init)
  let (res, rest) := bignumDigits base start (← getInput)
  setInput rest
  match rest with
  | [] => onHeap (allocNormalized res)
  | c :: port =>
    if c = byte '.' ∨ c = byte 'e' ∨ c = byte 'E' then
      setInput port
      if base ≠ 10 then readError "found non-base 10 float"
      else if c = byte '.' then tails.floatTail (flo.ofBignum res) (sign = .neg)
      else tails.bignumExponent res
    else if c = byte '/' then
      setInput port
      let num ← onHeap (allocNormalized res)
      let den ← readNumber
      match ← onHeap (numberType den) with
      | .fix | .big =>
        let rat ← onHeap (makeNormalizedRatio flo tower num den)
        onHeap (normalizeVal rat)
      | _ => tails.strayDenominator (← onHeap (sexpMakeRatio num den))
    else if c = byte 'i' ∨ c = byte '+' ∨ c = byte '-' then
      tails.complexTail (← onHeap (allocNormalized res))
    else if ¬ atDelimiter rest then
      setInput port
      readError "invalid numeric syntax"
    else onHeap (allocNormalized res)

/-- What stands in front of the digits: the radix and the flags. -/
structure NumberPrefix where
  base : ℤ
  exactp : Bool
  inexactp : Bool

/-- The letter after `#` in `sexp_read_number`. -/
def numberPrefix (base : ℤ) (exactp : Bool) (c : UInt8) : Option NumberPrefix :=
  let c := sexpTolower c
  if c = byte 'b' then some ⟨2, exactp, false⟩
  else if c = byte 'o' then some ⟨8, exactp, false⟩
  else if c = byte 'd' then some ⟨10, exactp, false⟩
  else if c = byte 'x' then some ⟨16, exactp, false⟩
  else if c = byte 'i' then some ⟨base, exactp, true⟩
  else if c = byte 'e' then some ⟨base, true, false⟩
  else none

/-- The sign at the front, and the rest. -/
def numberSign : List UInt8 → Bool × List UInt8
  | [] => (false, [])
  | c :: rest =>
    if c = byte '-' then (true, rest)
    else if c = byte '+' then (false, rest)
    else (false, c :: rest)

/-- `sexp_make_fixnum(negativep ? -val : val)` -/
def signedFixnum (negativep : Bool) (val : ℤ) : Val :=
  .fixnum (sexpMakeFixnum (if negativep then -val else val))

/-- The result of a literal that ends after its digits. -/
def finishNumber (inexactp negativep : Bool) (val : ℤ) : ReadM F Val :=
  if inexactp then
    onHeap (sexpMakeFlonum (flo.ofFixnum (sexpMakeFixnum (if negativep then -val else val))))
  else pure (signedFixnum negativep val)

/-- The rest of a literal after a slash. -/
def readDenominator (readNumber : ReadM F Val) (inexactp negativep : Bool) (val : ℤ) :
    ReadM F Val := do
  let den ← readNumber
  let res ← match ← onHeap (numberType den) with
    | .fix | .big => onHeap (makeNormalizedRatio flo tower (signedFixnum negativep val) den)
    | .cpx => tails.complexDenominator (signedFixnum negativep val) den
    | _ =>
      match den with
      | .exception message => pure (.exception message)
      | _ => readError "invalid rational syntax"
  if inexactp then onHeap (tails.exactToInexact res) else pure res

/-- `sexp_read_number` after the digits: `rest` starts with the character that ended them. -/
def afterDigits (readNumber : ReadM F Val) (pre : NumberPrefix) (negativep : Bool) (val tmp : ℤ)
    (rest : List UInt8) : ReadM F Val := do
  setInput rest
  match rest with
  | [] =>
    if tmp < 0 then readError "digitless numeric literal"
    else finishNumber flo pre.inexactp negativep val
  | c :: port =>
    if pre.exactp && isPrecisionIndicator c then
      setInput port
      tails.exactExponent (signedFixnum negativep val)
    else if decide (c = byte '.') || isPrecisionIndicator c then
      if pre.base ≠ 10 then
        setInput port
        readError "found non-base 10 float"
      else
        if c = byte '.' then setInput port
        tails.floatTail (flo.ofFixnum (sexpMakeFixnum val)) negativep
    else if c = byte '/' then
      setInput port
      readDenominator flo tower tails readNumber pre.inexactp negativep val
    else if c = byte 'i' ∨ c = byte 'I' ∨ c = byte '+' ∨ c = byte '-' ∨ c = byte '@' then
      if pre.base ≠ 10 then
        setInput port
        readError "found non-base 10 complex"
      else if c = byte '@' then
        setInput port
        tails.polarTail (signedFixnum negativep val)
      else tails.complexTail (signedFixnum negativep val)
    else if ¬ atDelimiter rest then
      setInput port
      readError "invalid numeric syntax"
    else if tmp < 0 then
      setInput port
      readError "digitless numeric literal"
    else finishNumber flo pre.inexactp negativep val

/-- The value before the first digit: one for a number that is only `i`. -/
def startValue : List UInt8 → ℤ
  | [] => 0
  | c :: _ => if c = byte 'i' ∨ c = byte 'I' then 1 else 0

/-- `sexp_read_number` from the sign on. -/
def readSigned (readNumber : ℤ → Bool → ReadM F Val) (pre : NumberPrefix) : ReadM F Val := do
  let (negativep, digits) := numberSign (← getInput)
  match scanDigits pre.base (startValue digits) (-1) digits with
  | .overflow val rest =>
    setInput rest
    sexpReadBignum flo tower tails (readNumber 10 false) val (if negativep then .neg else .pos)
      pre.base
  | .stop val tmp rest =>
    afterDigits flo tower tails (readNumber pre.base pre.exactp) pre negativep val tmp rest

/-- `sexp_read_number`.  Each number that it reads after a slash takes at least the slash, so the
characters of the port bound the recursion. -/
def sexpReadNumber : ℕ → ℤ → Bool → ReadM F Val
  | 0, _, _ => fun _ => none
  | fuel + 1, base, exactp => do
      match ← getInput with
      | c :: rest =>
        if c = byte '#' then
          setInput rest.tail
          match rest.head?.bind (numberPrefix base exactp) with
          | none => readError "unexpected numeric # code"
          | some pre => readSigned flo tower tails (sexpReadNumber fuel) pre
        else readSigned flo tower tails (sexpReadNumber fuel) ⟨base, exactp, false⟩
      | [] => readSigned flo tower tails (sexpReadNumber fuel) ⟨base, exactp, false⟩

end Reading

end ChibiScheme
