import ChibiScheme.Reader.Number
import ChibiScheme.Numeric.Represents

/-!
# The digit loops

Both digit loops compute the value of the digits they take.  The loop of `sexp_read_number` hands
over at the digit at which the value leaves the fixnum range, so the two together compute the value
of a numeral of any length.
-/

namespace ChibiScheme

open Stateful ExactInt List

/-! ## Values of numerals -/

/-- The value of `v` followed by the digits. -/
def digitsFrom (base : ℤ) : ℤ → List UInt8 → ℤ
  | v, [] => v
  | v, c :: rest => digitsFrom base (v * base + digitValue c) rest

/-- The number of some digits. -/
def digitsValue (base : ℤ) (ds : List UInt8) : ℤ :=
  digitsFrom base 0 ds

/-- Only digits of the base. -/
def IsNumeral (base : ℤ) (ds : List UInt8) : Prop :=
  ∀ c ∈ ds, isDigitOf base c = true

instance (base : ℤ) (ds : List UInt8) : Decidable (IsNumeral base ds) :=
  inferInstanceAs (Decidable (∀ c ∈ ds, isDigitOf base c = true))

theorem digitsFrom_append (base v : ℤ) (ds es : List UInt8) :
    digitsFrom base v (ds ++ es) = digitsFrom base (digitsFrom base v ds) es := by
  induction ds generalizing v with
  | nil => rfl
  | cons c rest ih => exact ih _

variable {base : ℤ} {c : UInt8}

theorem isDigitOf_bounds (hdigit : isDigitOf base c = true) :
    0 ≤ digitValue c ∧ digitValue c < base := by
  simp only [isDigitOf, Bool.and_eq_true, decide_eq_true_eq] at hdigit
  exact hdigit.2

variable {ds : List UInt8}

theorem le_digitsFrom (hbase : 1 ≤ base) (hds : IsNumeral base ds) {v : ℤ} (hv : 0 ≤ v) :
    v ≤ digitsFrom base v ds := by
  induction ds generalizing v with
  | nil => exact le_rfl
  | cons c rest ih =>
    have hdigit := isDigitOf_bounds (hds c mem_cons_self)
    have hstep : v ≤ v * base + digitValue c := by nlinarith
    have hrest := ih (fun d hd => hds d (mem_cons_of_mem _ hd))
      (show 0 ≤ v * base + digitValue c by omega)
    exact hstep.trans hrest

theorem digitsValue_nonneg (hbase : 1 ≤ base) (hds : IsNumeral base ds) : 0 ≤ digitsValue base ds :=
  le_digitsFrom hbase hds le_rfl

/-! ## Characters that end a numeral -/

/-- The character in front of the port is no digit of the radix. -/
def DigitsEnd (base : ℤ) (input : List UInt8) : Prop :=
  ∀ c ∈ input.head?, isDigitOf base c = false

private theorem separator_table : ∀ n < 256, sexpIsSeparator n = true →
    sexpIsxdigit (UInt8.ofNat n) = false ∧ isPrecisionIndicator (UInt8.ofNat n) = false ∧
      UInt8.ofNat n ∉ [byte '.', byte '/', byte 'i', byte 'I', byte '+', byte '-', byte '@',
        byte 'e', byte 'E'] := by
  decide +kernel

theorem separator_spec (hc : sexpIsSeparator c.toNat = true) :
    sexpIsxdigit c = false ∧ isPrecisionIndicator c = false ∧
      c ∉ [byte '.', byte '/', byte 'i', byte 'I', byte '+', byte '-', byte '@', byte 'e',
        byte 'E'] := by
  have htable := separator_table c.toNat c.toNat_lt hc
  rwa [UInt8.ofNat_toNat] at htable

private theorem xdigit_table : ∀ n < 256, sexpIsxdigit (UInt8.ofNat n) = true →
    UInt8.ofNat n ∉ [byte '#', byte '+', byte '-', byte 'i', byte 'I', byte '/'] := by
  decide +kernel

variable {val : ℤ}

theorem xdigit_spec (hc : sexpIsxdigit c = true) :
    c ∉ [byte '#', byte '+', byte '-', byte 'i', byte 'I', byte '/'] := by
  have htable := xdigit_table c.toNat c.toNat_lt (by rwa [UInt8.ofNat_toNat])
  rwa [UInt8.ofNat_toNat] at htable

theorem isDigitOf_xdigit (hdigit : isDigitOf base c = true) : sexpIsxdigit c = true := by
  simp only [isDigitOf, Bool.and_eq_true] at hdigit
  exact hdigit.1

variable {input : List UInt8}

theorem digitsEnd_of_delimiter (hend : atDelimiter input = true) : DigitsEnd base input := by
  intro c hc
  cases input with
  | nil => cases hc
  | cons d rest =>
    cases hc
    simp [isDigitOf, (separator_spec hend).1]

/-! ## The loop of `sexp_read_number` -/

theorem scanDigits_end {tmp : ℤ} (hend : DigitsEnd base input) :
    scanDigits base val tmp input = .stop val tmp input := by
  cases input with
  | nil => rfl
  | cons c rest => simp [scanDigits, hend c rfl]

theorem overflow_iff {digit : ℤ} (hbase : 2 ≤ base) (hval : 0 ≤ val) (hdigit : 0 ≤ digit) :
    (sexpMaxFixnum / base < val ∨ val * base + digit < val ∨ sexpMaxFixnum < val * base + digit) ↔
      sexpMaxFixnum < val * base + digit := by
  constructor
  · rintro (hquotient | hless | hgreater)
    · have hmul := (Int.ediv_lt_iff_lt_mul (show 0 < base by omega)).mp hquotient
      omega
    · nlinarith
    · exact hgreater
  · intro hgreater
    exact .inr (.inr hgreater)

/-- A numeral that stays in the fixnum range is read to its end, any other one up to the digit at
which it leaves it. -/
theorem scanDigits_spec (hbase : 2 ≤ base) {after : List UInt8} (hds : IsNumeral base ds)
    (hend : DigitsEnd base after) (tmp : ℤ) (hval : 0 ≤ val) (hmax : val ≤ sexpMaxFixnum) :
    (digitsFrom base val ds ≤ sexpMaxFixnum ∧
      scanDigits base val tmp (ds ++ after) =
        .stop (digitsFrom base val ds) (if ds = [] then tmp else digitsFrom base val ds) after) ∨
    (sexpMaxFixnum < digitsFrom base val ds ∧ ∃ before rest, ds = before ++ rest ∧
      0 ≤ digitsFrom base val before ∧ digitsFrom base val before ≤ sexpMaxFixnum ∧
      scanDigits base val tmp (ds ++ after) =
        .overflow (digitsFrom base val before) (rest ++ after)) := by
  induction ds generalizing val tmp with
  | nil => exact .inl ⟨hmax, scanDigits_end hend⟩
  | cons c rest ih =>
    have hdigit := hds c mem_cons_self
    have hrest : IsNumeral base rest := fun d hd => hds d (mem_cons_of_mem _ hd)
    have hbounds := isDigitOf_bounds hdigit
    have hiff := overflow_iff hbase hval hbounds.1
    have hnext : 0 ≤ val * base + digitValue c := by nlinarith
    by_cases hover : sexpMaxFixnum < val * base + digitValue c
    · refine .inr ⟨?_, [], c :: rest, rfl, hval, hmax, ?_⟩
      · exact hover.trans_le (le_digitsFrom (by omega) hrest hnext)
      · simp [scanDigits, hdigit, hiff.mpr hover, digitsFrom]
    · have hstep : scanDigits base val tmp (c :: rest ++ after) =
          scanDigits base (val * base + digitValue c) (val * base + digitValue c)
            (rest ++ after) := by
        simp only [cons_append, scanDigits, hdigit, if_true]
        rw [if_neg (fun h => hover (hiff.mp h))]
      rw [hstep]
      rcases ih hrest (val * base + digitValue c) hnext (not_lt.mp hover) with
        ⟨hle, hscan⟩ | ⟨hlt, before, after', rfl, hnonneg, hle, hscan⟩
      · refine .inl ⟨hle, hscan.trans ?_⟩
        simp only [digitsFrom, cons_ne_nil, if_false]
        cases rest with
        | nil => rfl
        | cons d more => rfl
      · exact .inr ⟨hlt, c :: before, after', rfl, hnonneg, hle, hscan⟩

/-! ## The loop of `sexp_read_bignum` -/

theorem ofInt_toNat {n : ℤ} (hnonneg : 0 ≤ n) (hlt : n < 2 ^ 64) :
    ((UInt64.ofInt n).toNat : ℤ) = n := by
  unfold UInt64.ofInt
  rw [UInt64.toNat_ofNat']
  omega

theorem bignumDigits_end (res : Bignum) (hend : DigitsEnd base input) :
    bignumDigits base res input = (res, input) := by
  cases input with
  | nil => rfl
  | cons c rest => simp [bignumDigits, hend c rfl]

/-- The digits are read into the bignum. -/
theorem bignumDigits_spec (hbase : 2 ≤ base) (hsmall : base ≤ 16) {after : List UInt8}
    (hds : IsNumeral base ds) (hend : DigitsEnd base after) (res : Bignum) :
    ∃ res', bignumDigits base res (ds ++ after) = (res', after) ∧ res'.sign = res.sign ∧
      (res'.magnitude : ℤ) = digitsFrom base res.magnitude ds := by
  induction ds generalizing res with
  | nil => exact ⟨res, bignumDigits_end res hend, rfl, rfl⟩
  | cons c rest ih =>
    have hdigit := hds c mem_cons_self
    have hbounds := isDigitOf_bounds hdigit
    let product := sexpBignumFxmul (some res) res (UInt64.ofInt base) 0
    let sum := sexpBignumFxadd product (UInt64.ofInt (digitValue c))
    obtain ⟨res', hrun, hsign, hmagnitude⟩ :=
      ih (fun d hd => hds d (mem_cons_of_mem _ hd)) sum
    have hsum : (sum.magnitude : ℤ) = res.magnitude * base + digitValue c := by
      simp only [sum, product]
      rw [sexpBignumFxadd_magnitude, sexpBignumFxmul_magnitude (.inr rfl)]
      push_cast
      rw [ofInt_toNat (by omega) (by omega), ofInt_toNat (by omega) (by omega)]
    refine ⟨res', ?_, ?_, ?_⟩
    · simp only [cons_append, bignumDigits, hdigit, if_true]
      exact hrun
    · rw [hsign]
      simp only [sum, product, sexpBignumFxadd_sign, sexpBignumFxmul_sign]
    · rw [hmagnitude, hsum]
      rfl

/-! ## Reading an exact integer

A numeral followed by a delimiter is read to the integer it denotes, in canonical representation,
whichever of the two digit loops it ends in. -/

variable {F : Type} {flo : FlonumOps F} {tower : Arith F} {tails : NumberTails F}

/-! ## Runs -/

theorem onHeap_run {α : Type} {routine : NumM F α} {input : List UInt8} {h h' : Heap F}
    {result : α} (hrun : routine h = some (result, h')) :
    onHeap routine ⟨input, h⟩ = some (result, ⟨input, h'⟩) := by
  simp [onHeap, hrun]

theorem setInput_run (input input' : List UInt8) (h : Heap F) :
    setInput input' ⟨input, h⟩ = some ((), ⟨input', h⟩) := rfl

theorem getInput_run (s : ReadState F) : getInput s = some (s.input, s) := rfl

theorem onHeap_returns {α : Type} {routine : NumM F α} {input : List UInt8} {h : Heap F}
    {post : α → Heap F → Prop} (hrun : Returns routine h post) :
    Returns (onHeap routine) ⟨input, h⟩ fun result s => s.input = input ∧ post result s.heap := by
  obtain ⟨result, h', hresult, hpost⟩ := hrun
  exact ⟨result, ⟨input, h'⟩, onHeap_run hresult, rfl, hpost⟩

/-- The integer `n` has been read, up to `after`, into a new object. -/
structure ReadsInt (h : Heap F) (after : List UInt8) (n : ℤ) (v : Val) (s : ReadState F) :
    Prop where
  input : s.input = after
  kept : Extends h s.heap
  fresh : Fresh h.length v
  value : RepInt s.heap v n

theorem allocInt_reads {x : ExactInt} (hcanonical : x.Canonical) (after : List UInt8)
    (h : Heap F) : Returns (onHeap (allocInt x)) ⟨after, h⟩ (ReadsInt h after x.toInt) := by
  refine (onHeap_returns (allocInt_run x h)).mono ?_
  rintro v s ⟨hinput, hkept, hvalue, hfresh⟩
  exact ⟨hinput, hkept, hfresh, x, hvalue, hcanonical, rfl⟩

theorem allocNormalized_reads (b : Bignum) (after : List UInt8) (h : Heap F) :
    Returns (onHeap (allocNormalized b)) ⟨after, h⟩ (ReadsInt h after b.toInt) := by
  have hread := allocInt_reads (sexpBignumNormalize_canonical b) after h
  rwa [sexpBignumNormalize_toInt] at hread

theorem fixnum_reads {n : ℤ} (hrange : InFixnumRange n) (after : List UInt8) (h : Heap F) :
    Returns (pure (.fixnum (sexpMakeFixnum n)) : ReadM F Val) ⟨after, h⟩ (ReadsInt h after n) := by
  refine Returns.pure ⟨rfl, Extends.refl h, trivial, .fixnum (sexpMakeFixnum n), rfl, trivial, ?_⟩
  exact sexpMakeFixnum_val hrange

/-! ## The bignum reader -/

theorem startBignum_spec (sign : Sign) {init : ℤ} (hinit : 0 ≤ init) (hmax : init ≤ sexpMaxFixnum) :
    let start := ((sexpMakeBignum sexpInitBignumSize).withSign sign).setDigit 0 (UInt64.ofInt init)
    start.sign = sign ∧ (start.magnitude : ℤ) = init := by
  refine ⟨rfl, ?_⟩
  have hword := ofInt_toNat hinit (show init < 2 ^ 64 by unfold sexpMaxFixnum at hmax; omega)
  simp only [Bignum.magnitude, Bignum.setDigit, Bignum.withSign, sexpMakeBignum,
    sexpInitBignumSize, replicate_succ, replicate_zero, set_cons_zero]
  simpa using hword

theorem sign_toInt_mul (sign : Sign) (b : Bignum) (hsign : b.sign = sign) :
    b.toInt = sign.toInt * b.magnitude := by
  rw [Bignum.toInt, hsign]

variable {base : ℤ} {ds after : List UInt8}

theorem sexpReadBignum_integer (hbase : 2 ≤ base) (hsmall : base ≤ 16) (hds : IsNumeral base ds)
    (hend : atDelimiter after = true) (readNumber : ReadM F Val) (sign : Sign) {init : ℤ}
    (hinit : 0 ≤ init) (hmax : init ≤ sexpMaxFixnum) (h : Heap F) :
    Returns (sexpReadBignum flo tower tails readNumber init sign base) ⟨ds ++ after, h⟩
      (ReadsInt h after (sign.toInt * digitsFrom base init ds)) := by
  obtain ⟨hsign, hmagnitude⟩ := startBignum_spec sign hinit hmax
  obtain ⟨res, hdigits, hressign, hresmagnitude⟩ :=
    bignumDigits_spec hbase hsmall hds (digitsEnd_of_delimiter hend)
      (((sexpMakeBignum sexpInitBignumSize).withSign sign).setDigit 0 (UInt64.ofInt init))
  have hvalue : res.toInt = sign.toInt * digitsFrom base init ds := by
    rw [sign_toInt_mul sign res (hressign.trans hsign), hresmagnitude, hmagnitude]
  rw [← hvalue]
  unfold sexpReadBignum
  refine Returns.of_bind_run (getInput_run _) ?_
  simp only [hdigits]
  refine Returns.of_bind_run (setInput_run _ _ _) ?_
  cases after with
  | nil => exact allocNormalized_reads res [] h
  | cons c port =>
    obtain ⟨-, -, hnot⟩ := separator_spec hend
    simp only [mem_cons, not_mem_nil, or_false, not_or] at hnot
    obtain ⟨hdot, hslash, hi, -, hplus, hminus, -, he, hE⟩ := hnot
    simp only [hdot, hslash, hi, hplus, hminus, he, hE, or_self, if_false, hend,
      not_true_eq_false]
    exact allocNormalized_reads res _ h

/-! ## The number reader -/

/-- The sign of a numeral. -/
def signText (negativep : Bool) : List UInt8 :=
  if negativep then [byte '-'] else []

/-- The sign of the number. -/
def signOf (negativep : Bool) : Sign :=
  if negativep then .neg else .pos

theorem numeral_head (hds : IsNumeral base ds) (hne : ds ≠ []) :
    ∃ c rest, ds = c :: rest ∧ c ∉ [byte '#', byte '+', byte '-', byte 'i', byte 'I', byte '/'] := by
  cases ds with
  | nil => exact absurd rfl hne
  | cons c rest =>
    exact ⟨c, rest, rfl, xdigit_spec (isDigitOf_xdigit (hds c mem_cons_self))⟩

theorem numberSign_numeral (hds : IsNumeral base ds) (hne : ds ≠ []) (negativep : Bool)
    (after : List UInt8) :
    numberSign (signText negativep ++ (ds ++ after)) = (negativep, ds ++ after) := by
  obtain ⟨c, rest, rfl, hnot⟩ := numeral_head hds hne
  simp only [mem_cons, not_mem_nil, or_false, not_or] at hnot
  obtain ⟨-, hplus, hminus, -⟩ := hnot
  cases negativep with
  | true => simp [signText, numberSign]
  | false =>
    simp only [signText, Bool.false_eq_true, if_false, nil_append, cons_append,
      numberSign, hplus, hminus]

theorem readSigned_numeral (hds : IsNumeral base ds) (hne : ds ≠ []) (negativep : Bool)
    (after : List UInt8) (readNumber : ℤ → Bool → ReadM F Val) (pre : NumberPrefix) (h : Heap F) :
    readSigned flo tower tails readNumber pre ⟨signText negativep ++ (ds ++ after), h⟩ =
      (match scanDigits pre.base 0 (-1) (ds ++ after) with
        | .overflow val rest =>
          sexpReadBignum flo tower tails (readNumber 10 false) val (signOf negativep) pre.base
            ⟨rest, h⟩
        | .stop val tmp rest =>
          afterDigits flo tower tails (readNumber pre.base pre.exactp) pre negativep val tmp rest
            ⟨signText negativep ++ (ds ++ after), h⟩) := by
  obtain ⟨c, rest, hcons, hnot⟩ := numeral_head hds hne
  simp only [mem_cons, not_mem_nil, or_false, not_or] at hnot
  obtain ⟨-, -, -, hi, hI, -⟩ := hnot
  have hstart : startValue (ds ++ after) = 0 := by
    simp only [hcons, cons_append, startValue, hi, hI, or_self, if_false]
  unfold readSigned
  rw [bind_run (getInput_run _)]
  simp only [numberSign_numeral hds hne, hstart]
  cases scanDigits pre.base 0 (-1) (ds ++ after) with
  | stop val tmp rest => rfl
  | overflow val rest => exact bind_run (setInput_run _ _ _)

theorem sexpReadNumber_numeral (hds : IsNumeral base ds) (hne : ds ≠ []) (negativep : Bool)
    (after : List UInt8) (fuel : ℕ) (radix : ℤ) (exactp : Bool) (h : Heap F) :
    sexpReadNumber flo tower tails (fuel + 1) radix exactp
        ⟨signText negativep ++ (ds ++ after), h⟩ =
      readSigned flo tower tails (sexpReadNumber flo tower tails fuel) ⟨radix, exactp, false⟩
        ⟨signText negativep ++ (ds ++ after), h⟩ := by
  obtain ⟨c, rest, rfl, hnot⟩ := numeral_head hds hne
  simp only [mem_cons, not_mem_nil, or_false, not_or] at hnot
  obtain ⟨hhash, -⟩ := hnot
  simp only [sexpReadNumber]
  rw [bind_run (getInput_run _)]
  cases negativep with
  | true => simp [signText]
  | false =>
    simp only [signText, Bool.false_eq_true, if_false, nil_append, cons_append, hhash]

theorem afterDigits_integer {exactp : Bool} (readNumber : ReadM F Val) (negativep : Bool)
    {val tmp : ℤ} (hrange : InFixnumRange ((signOf negativep).toInt * val)) (htmp : 0 ≤ tmp)
    (hend : atDelimiter after = true) (s : ReadState F) :
    Returns (afterDigits flo tower tails readNumber ⟨base, exactp, false⟩ negativep val tmp after) s
      (ReadsInt s.heap after ((signOf negativep).toInt * val)) := by
  have hfinish : Returns (finishNumber flo false negativep val : ReadM F Val) ⟨after, s.heap⟩
      (ReadsInt s.heap after ((signOf negativep).toInt * val)) := by
    have hread := fixnum_reads hrange after s.heap
    cases negativep with
    | true => simpa [finishNumber, signedFixnum, signOf] using hread
    | false => simpa [finishNumber, signedFixnum, signOf] using hread
  unfold afterDigits
  refine Returns.of_bind_run (setInput_run _ _ _) ?_
  cases after with
  | nil =>
    simp only [if_neg (not_lt.mpr htmp)]
    exact hfinish
  | cons c port =>
    obtain ⟨-, hprecision, hnot⟩ := separator_spec hend
    simp only [mem_cons, not_mem_nil, or_false, not_or] at hnot
    obtain ⟨hdot, hslash, hi, hI, hplus, hminus, hat, -, -⟩ := hnot
    simp only [hprecision, hdot, hslash, hi, hI, hplus, hminus, hat, hend, Bool.and_false,
      Bool.or_false, decide_false, Bool.false_eq_true, or_self, if_false, not_true_eq_false,
      if_neg (not_lt.mpr htmp)]
    exact hfinish

theorem sexpReadNumber_integer (hbase : 2 ≤ base) (hsmall : base ≤ 16) (hds : IsNumeral base ds)
    (hne : ds ≠ []) (hend : atDelimiter after = true) (negativep exactp : Bool) (fuel : ℕ)
    (h : Heap F) :
    Returns (sexpReadNumber flo tower tails (fuel + 1) base exactp)
      ⟨signText negativep ++ (ds ++ after), h⟩
      (ReadsInt h after ((signOf negativep).toInt * digitsValue base ds)) := by
  have hzero : (0 : ℤ) ≤ sexpMaxFixnum := by decide
  unfold Returns
  rw [sexpReadNumber_numeral hds hne, readSigned_numeral hds hne]
  have hnonneg := digitsValue_nonneg (show 1 ≤ base by omega) hds
  rcases scanDigits_spec hbase hds (digitsEnd_of_delimiter hend) (-1) le_rfl hzero with
    ⟨hle, hscan⟩ | ⟨hlt, before, rest, rfl, hbefore, hmax, hscan⟩
  · rw [hscan]
    simp only [if_neg hne]
    refine afterDigits_integer _ negativep ?_ hnonneg hend _
    unfold sexpMaxFixnum at hle
    rw [inFixnumRange_iff]
    cases negativep with
    | true =>
      simp only [signOf, if_true, Sign.toInt_neg, digitsValue] at hnonneg ⊢
      omega
    | false =>
      simp only [signOf, Bool.false_eq_true, if_false, Sign.toInt_pos, digitsValue] at hnonneg ⊢
      omega
  · rw [hscan, digitsValue, digitsFrom_append]
    exact sexpReadBignum_integer hbase hsmall (fun c hc => hds c (mem_append_right _ hc)) hend
      _ _ hbefore hmax h

end ChibiScheme
