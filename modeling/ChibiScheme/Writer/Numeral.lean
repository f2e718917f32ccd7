import ChibiScheme.Reader.Integer

/-!
# Writing exact integers and symbols

`sexp_write_bignum`, which divides a copy of the bignum by the base until nothing is left and fills
a string from its end, and `number->string`, which does the same on Scheme integers.
-/

namespace ChibiScheme

open ExactInt

/-! ## Digits -/

/-- `hex_digit` of the bignum writer. -/
def hexDigit (n : ℕ) : UInt8 :=
  if n ≤ 9 then UInt8.ofNat (48 + n) else UInt8.ofNat (65 + n - 10)

/-- The digit of a number below 36. -/
def digitChar (n : ℕ) : UInt8 :=
  if n ≤ 9 then UInt8.ofNat (48 + n) else UInt8.ofNat (97 + n - 10)

/-- The digits of a number, the highest first, and a zero for zero. -/
def numeralText (digit : ℕ → UInt8) (base n : ℕ) : List UInt8 :=
  if n = 0 then [digit 0] else ((Nat.digits base n).reverse).map digit

/-- `snprintf` of a fixnum with `%ld`. -/
def decimalText (n : ℤ) : List UInt8 :=
  (if n < 0 then [byte '-'] else []) ++ numeralText hexDigit 10 n.natAbs

/-! ## `sexp_write_bignum` -/

/-- The loop of `log2i`, over the bits of an `int`. -/
def log2iLoop (v : ℕ) : ℕ → ℕ → ℕ
  | 0, i => i
  | bits + 1, i => if v < 2 ^ (i + 1) then i else log2iLoop v bits (i + 1)

/-- `log2i` -/
def log2i (v : ℕ) : ℕ :=
  log2iLoop v 32 0

/-- The length of the string that holds the digits of a bignum of `words` digits. -/
def digitBufferLength (words base : ℕ) : ℕ :=
  (words * 64 + log2i base - 1) / log2i base + 1

/-- `str_len`: the length in an `int`. -/
def strLen (words base : ℕ) : ℤ :=
  Int.bmod (digitBufferLength words base) (2 ^ 32)

/-- `sexp_bignum_zerop`, for lengths that fit in its `int i`. -/
def sexpBignumZerop (b : Bignum) : Bool :=
  b.data.all (· = 0)

/-- The loop of `sexp_write_bignum`: the position of the first character written, and the
characters from there on.  It has no result when it would write in front of the string. -/
def writeDigits (base : ℕ) : ℕ → Bignum → ℕ → List UInt8 → Option (ℕ × List UInt8)
  | 0, _, _, _ => none
  | fuel + 1, b, i, text =>
    if sexpBignumZerop b then some (i, text)
    else if i = 0 then none
    else
      let (quotient, remainder) := sexpBignumFxdiv b (UInt64.ofNat base) 0
      writeDigits base fuel quotient (i - 1) (hexDigit remainder.toNat :: text)

/-- `sexp_write_bignum`: the text written.  It has no result when the string cannot be made or
does not hold the text. -/
def sexpWriteBignum (a : Bignum) (base : ℕ) : Option (List UInt8) :=
  let b := (sexpCopyBignum a 0).withSign .pos
  let length := strLen a.data.length base
  if length < 0 then none
  else do
    let (i, text) ← writeDigits base (a.magnitude + 1) b length.toNat []
    if i = length.toNat then (if i = 0 then none else some (byte '0' :: text))
    else if a.sign = .neg then (if i = 0 then none else some (byte '-' :: text))
    else some text

/-- `sexp_write` of an exact integer. -/
def writeInteger : ExactInt → Option (List UInt8)
  | .fixnum n => some (decimalText n.val)
  | .bignum b => sexpWriteBignum b 10

/-! ## `number->string` -/

/-- `<` -/
def vmLess : ExactInt → ExactInt → Bool
  | .fixnum a, .fixnum b => decide (a.val < b.val)
  | a, b => decide ((compareInteger a b).val < 0)

/-- `-` -/
def vmSub : ExactInt → ExactInt → ExactInt
  | .fixnum a, .fixnum b =>
    let j := a.val - b.val
    if j < sexpMinFixnum ∨ sexpMaxFixnum < j then
      subInteger (.bignum (sexpFixnumToBignum a)) (.fixnum b)
    else .fixnum (sexpMakeFixnum j)
  | a, b => subInteger a b

/-- The integer of a result. -/
def IntResult.integer? : IntResult → Option ExactInt
  | .integer n => some n
  | _ => none

/-- `quotient` by a fixnum other than zero and minus one. -/
def vmQuotient (a : ExactInt) (d : Fixnum) : Option ExactInt :=
  match a with
  | .fixnum n => some (.fixnum (sexpFxDiv n d))
  | .bignum _ => (quotientInteger a (.fixnum d)).bind IntResult.integer?

/-- `remainder` by a fixnum other than zero. -/
def vmRemainder (a : ExactInt) (d : Fixnum) : Option ExactInt :=
  match a with
  | .fixnum n => some (.fixnum (sexpFxRem n d))
  | .bignum _ => (remainderInteger a (.fixnum d)).bind IntResult.integer?

/-- `abs` -/
def schemeAbs (x : ExactInt) : ExactInt :=
  if vmLess x (.fixnum sexpZero) then vmSub (.fixnum sexpZero) x else x

/-- The loop of `number->string`. -/
def numberToStringLoop (d : Fixnum) : ℕ → ExactInt → List UInt8 → Option (List UInt8)
  | 0, _, _ => none
  | fuel + 1, n, res =>
    if vmLess (.fixnum sexpZero) n then do
      let quotient ← vmQuotient n d
      let remainder ← vmRemainder n d
      numberToStringLoop d fuel quotient (digitChar remainder.toInt.toNat :: res)
    else some res

/-- `number->string` of an exact integer. -/
def numberToString (num : ExactInt) (d : ℕ) : Option (List UInt8) :=
  if d = 10 then writeInteger num
  else do
    let res ← numberToStringLoop (sexpMakeFixnum d) (num.toInt.natAbs + 1) (schemeAbs num) []
    if res = [] then some [byte '0']
    else some (if vmLess num (.fixnum sexpZero) then byte '-' :: res else res)

/-! ## Symbols -/

/-- The test on the first characters of a name: is it empty, a dot, or like a number? -/
def needsBarsAtStart (str : List UInt8) : Bool :=
  let at' := fun i => str.getD i 0
  decide (str.length = 0) || decide (str.length = 1 ∧ at' 0 = byte '.') || sexpIsdigit (at' 0) ||
    (decide (str.length > 1) && decide (at' 0 = byte '+' ∨ at' 0 = byte '-') &&
      (sexpIsdigit (at' 1) || decide (at' 1 = byte '.') || decide (at' 1 = byte 'i') ||
        decide (str.length > 3 ∧ sexpTolower (at' 1) = byte 'n' ∧ sexpTolower (at' 2) = byte 'a' ∧
          sexpTolower (at' 3) = byte 'n')))

/-- A character that needs bars.  A `char` from 128 on is negative. -/
def needsBars (c : UInt8) : Bool :=
  decide (c ≤ byte ' ' ∨ 128 ≤ c ∨ c = 0x5C ∨ c = byte '|' ∨ c = byte '#') ||
    sexpIsSeparator c.toNat

/-- `sexp_write_one`, the case `SEXP_SYMBOL`. -/
def sexpWriteSymbol (str : List UInt8) : List UInt8 :=
  let bar := if needsBarsAtStart str || str.any needsBars then [byte '|'] else []
  let name := str.flatMap fun c => if c = 0x5C ∨ c = byte '|' then [0x5C, c] else [c]
  bar ++ name ++ bar

/-! ## Numerals

The digits of both writers are digits to the reader, and the numeral of a number has that number as
its value.  The two digit loops produce the numeral: the one of `sexp_write_bignum` as long as the
string has room for it. -/

open Stateful List

/-! ## Digits -/

/-- A way to write digits that the reader understands. -/
def DigitNames (digit : ℕ → UInt8) : Prop :=
  ∀ d < 16, sexpIsxdigit (digit d) = true ∧ digitValue (digit d) = d

theorem hexDigit_names : DigitNames hexDigit := by
  unfold DigitNames
  decide

theorem digitChar_names : DigitNames digitChar := by
  unfold DigitNames
  decide

section

variable {digit : ℕ → UInt8} {base : ℕ}

theorem isDigitOf_digit (hnames : DigitNames digit) (hsmall : base ≤ 16) {d : ℕ} (hd : d < base) :
    isDigitOf base (digit d) = true := by
  obtain ⟨hxdigit, hvalue⟩ := hnames d (hd.trans_le hsmall)
  simp only [isDigitOf, hxdigit, hvalue, Bool.true_and, decide_eq_true_eq]
  omega

/-! ## The numeral of a number -/

/-- The digits of a number, the highest first. -/
def digitText (digit : ℕ → UInt8) (base n : ℕ) : List UInt8 :=
  ((Nat.digits base n).reverse).map digit

@[simp] theorem digitText_zero (digit : ℕ → UInt8) (base : ℕ) : digitText digit base 0 = [] := by
  simp [digitText]

theorem digitText_step (hbase : 2 ≤ base) {n : ℕ} (hpos : 0 < n) :
    digitText digit base n = digitText digit base (n / base) ++ [digit (n % base)] := by
  rw [digitText, Nat.digits_def' (by omega) hpos, reverse_cons, map_append]
  rfl

theorem length_digitText (digit : ℕ → UInt8) (base n : ℕ) :
    (digitText digit base n).length = (Nat.digits base n).length := by
  simp [digitText]

theorem digitText_ne_nil {n : ℕ} (hpos : n ≠ 0) : digitText digit base n ≠ [] := by
  simpa [digitText] using Nat.digits_ne_nil_iff_ne_zero.mpr hpos

theorem isNumeral_digitText (hnames : DigitNames digit) (hbase : 2 ≤ base) (hsmall : base ≤ 16)
    (n : ℕ) : IsNumeral base (digitText digit base n) := by
  intro c hc
  obtain ⟨d, hd, rfl⟩ := mem_map.mp hc
  exact isDigitOf_digit hnames hsmall (Nat.digits_lt_base (by omega) (mem_reverse.mp hd))

theorem digitsValue_digitText (hnames : DigitNames digit) (hbase : 2 ≤ base) (hsmall : base ≤ 16)
    (n : ℕ) : digitsValue base (digitText digit base n) = n := by
  induction n using Nat.strong_induction_on with
  | _ n ih =>
    by_cases hzero : n = 0
    · simp [hzero, digitsValue, digitsFrom]
    have hpos : 0 < n := Nat.pos_of_ne_zero hzero
    have hquotient := ih (n / base) (Nat.div_lt_self hpos (by omega))
    have hdigit := (hnames (n % base) ((Nat.mod_lt n (by omega)).trans_le hsmall)).2
    rw [digitsValue] at hquotient ⊢
    rw [digitText_step hbase hpos, digitsFrom_append, hquotient, digitsFrom, digitsFrom, hdigit]
    exact_mod_cast Nat.div_add_mod' n base

theorem numeralText_eq (digit : ℕ → UInt8) (base n : ℕ) :
    numeralText digit base n = if n = 0 then [digit 0] else digitText digit base n := rfl

theorem numeralText_ne_nil (n : ℕ) : numeralText digit base n ≠ [] := by
  rw [numeralText_eq]
  split
  · simp
  · exact digitText_ne_nil ‹_›

theorem isNumeral_numeralText (hnames : DigitNames digit) (hbase : 2 ≤ base) (hsmall : base ≤ 16)
    (n : ℕ) : IsNumeral base (numeralText digit base n) := by
  rw [numeralText_eq]
  split
  · intro c hc
    rw [mem_singleton.mp hc]
    exact isDigitOf_digit hnames hsmall (by omega)
  · exact isNumeral_digitText hnames hbase hsmall n

theorem digitsValue_numeralText (hnames : DigitNames digit) (hbase : 2 ≤ base)
    (hsmall : base ≤ 16) (n : ℕ) : digitsValue base (numeralText digit base n) = n := by
  rw [numeralText_eq]
  split
  · rename_i hzero
    have hdigit := (hnames 0 (by omega)).2
    simp [digitsValue, digitsFrom, hdigit, hzero]
  · exact digitsValue_digitText hnames hbase hsmall n

end

/-! ## The loop of `sexp_write_bignum` -/

theorem value_eq_zero_iff (words : List UInt64) :
    words.all (· = 0) = true ↔ Limbs.value words = 0 := by
  induction words with
  | nil => simp
  | cons word words ih =>
    rw [all_cons, Bool.and_eq_true, ih]
    simp only [decide_eq_true_eq, Limbs.value_cons]
    have hword : word = 0 ↔ word.toNat = 0 := by
      rw [← UInt64.toNat_inj]
      rfl
    rw [hword]
    have hbase : Limbs.base ≠ 0 := by decide
    simp [hbase]

theorem sexpBignumZerop_iff (b : Bignum) : sexpBignumZerop b = true ↔ b.magnitude = 0 :=
  value_eq_zero_iff b.data

/-- The loop writes the digits, the lowest first. -/
theorem writeDigits_spec {base : ℕ} (hbase : 2 ≤ base) (hsmall : base ≤ 16) (fuel : ℕ) (b : Bignum)
    (hfuel : b.magnitude < fuel) (i : ℕ) (text : List UInt8) :
    writeDigits base fuel b i text =
      if (Nat.digits base b.magnitude).length ≤ i then
        some (i - (Nat.digits base b.magnitude).length,
          digitText hexDigit base b.magnitude ++ text)
      else none := by
  induction fuel generalizing b i text with
  | zero => omega
  | succ fuel ih =>
    unfold writeDigits
    by_cases hzero : b.magnitude = 0
    · rw [if_pos ((sexpBignumZerop_iff b).mpr hzero)]
      simp [hzero]
    · have hpos : 0 < b.magnitude := Nat.pos_of_ne_zero hzero
      have hword : (UInt64.ofNat base).toNat = base := by
        rw [UInt64.toNat_ofNat']
        omega
      obtain ⟨hquotient, hremainder⟩ :=
        sexpBignumFxdiv_spec b (b := UInt64.ofNat base) (by omega)
      rw [hword] at hquotient hremainder
      have hsmaller : b.magnitude / base < fuel := by
        have hlt := Nat.div_lt_self hpos (show 1 < base by omega)
        omega
      have hlength : (Nat.digits base b.magnitude).length =
          (Nat.digits base (b.magnitude / base)).length + 1 := by
        rw [Nat.digits_def' (by omega) hpos, length_cons]
      rw [if_neg (fun h => hzero ((sexpBignumZerop_iff b).mp h)), hlength]
      by_cases hroom : i = 0
      · rw [if_pos hroom, if_neg (by omega)]
      simp only [if_neg hroom]
      rw [ih _ (by rw [hquotient]; exact hsmaller), hquotient, hremainder,
        digitText_step hbase hpos, append_assoc, singleton_append]
      by_cases hfits : (Nat.digits base (b.magnitude / base)).length ≤ i - 1
      · rw [if_pos hfits, if_pos (by omega)]
        congr 2
        omega
      · rw [if_neg hfits, if_neg (by omega)]

end ChibiScheme
