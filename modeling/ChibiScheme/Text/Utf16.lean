import ChibiScheme.Text.StringIndex
import Mathlib.Algebra.BigOperators.Group.List.Basic
import Mathlib.Data.List.Induction

/-!
# UTF-16 and UTF-32

The conversions between strings and bytevectors, `str2utf16`, `str2utf32`,
`utf16_2_str` and `utf32_2_str`.  Each allocates its result with the length that a
first pass has computed and fills it in a second one.

An object is the list of its bytes, and its words are read and written in the byte
order of the machine.  `none` is undefined behaviour: an access outside of an object,
or an overflow of a C `int`.  Fresh memory may hold anything.
-/

namespace ChibiScheme.Utf16

open List Option

/-! ## Words in memory -/

/-- An order of the bytes of a word: the machine has one, and the caller names one. -/
inductive Endianness where
  | big
  | little
  deriving DecidableEq

/-- The bytes of a word, the lowest first. -/
def littleBytes : ℕ → ℕ → List UInt8
  | 0, _ => []
  | width + 1, n => UInt8.ofNat n :: littleBytes width (n / 256)

/-- The number with the given bytes, the lowest first. -/
def ofLittle : List UInt8 → ℕ
  | [] => 0
  | b :: bytes => b.toNat + 256 * ofLittle bytes

/-- The bytes of a word in memory. -/
def wordBytes (order : Endianness) (width n : ℕ) : List UInt8 :=
  match order with
  | .little => littleBytes width n
  | .big => (littleBytes width n).reverse

/-- The word of some bytes. -/
def ofBytes (order : Endianness) (bytes : List UInt8) : ℕ :=
  match order with
  | .little => ofLittle bytes
  | .big => ofLittle bytes.reverse

/-- Read the word at a byte offset. -/
def loadWord (order : Endianness) (width : ℕ) (bv : List UInt8) (i : ℕ) : Option ℕ :=
  if i + width ≤ bv.length then some (ofBytes order ((bv.drop i).take width)) else none

/-- Bytes written at `i`; behind the end it is undefined. -/
def storeBytes (bv : List UInt8) (i : ℕ) (bytes : List UInt8) : Option (List UInt8) :=
  if i + bytes.length ≤ bv.length then some (bv.take i ++ (bytes ++ bv.drop (i + bytes.length)))
  else none

/-- `sexp_swap_u16` -/
def sexpSwapU16 (n : ℕ) : ℕ := ((n >>> 8) ||| ((n &&& 0xFF) <<< 8)) % 2 ^ 16

/-- `sexp_swap_u32` -/
def sexpSwapU32 (n : ℕ) : ℕ :=
  ((n >>> 24) &&& 0xff) ||| ((n <<< 8) &&& 0xff0000) |||
    ((n >>> 8) &&& 0xff00) ||| ((n <<< 24) &&& 0xff000000)

/-- The conversion of a size to a C `int`. -/
def cInt (n : ℕ) : ℤ := Int.bmod n (2 ^ 32)

/-! ## The code -/

/-- `decode_utf8` -/
def decodeUtf8 (s : List UInt8) (p chLen : ℕ) : Option ℕ :=
  if chLen ≤ 1 then byteAt s p
  else if chLen = 2 then do
    let p0 ← byteAt s p
    let p1 ← byteAt s (p + 1)
    return ((p0 &&& 0x3F) <<< 6) + (p1 &&& 0x3F)
  else if chLen = 3 then do
    let p0 ← byteAt s p
    let p1 ← byteAt s (p + 1)
    let p2 ← byteAt s (p + 2)
    return ((p0 &&& 0x1F) <<< 12) + ((p1 &&& 0x3F) <<< 6) + (p2 &&& 0x3F)
  else do
    let p0 ← byteAt s p
    let p1 ← byteAt s (p + 1)
    let p2 ← byteAt s (p + 2)
    let p3 ← byteAt s (p + 3)
    return ((p0 &&& 0x0F) <<< 18) + ((p1 &&& 0x3F) <<< 12) + ((p2 &&& 0x3F) <<< 6) + (p3 &&& 0x3F)

/-- `utf8_char_byte_count` of a C `int`. -/
def utf8CharByteCount (c : ℤ) : ℕ :=
  if c < 0x80 then 1
  else if c < 0x800 then 2
  else if c < 0x10000 then 3
  else 4

/-- `utf8_encode_char`: the bytes written; only the last form is used for a negative
`int`. -/
def utf8EncodeChar (len : ℕ) (c : ℤ) : List UInt8 :=
  let n := c.toNat
  match len with
  | 4 => [.ofNat (0xF0 + (n >>> 18)), .ofNat (0x80 + ((n >>> 12) &&& 0x3F)),
      .ofNat (0x80 + ((n >>> 6) &&& 0x3F)), .ofNat (0x80 + (n &&& 0x3F))]
  | 3 => [.ofNat (0xE0 + (n >>> 12)), .ofNat (0x80 + ((n >>> 6) &&& 0x3F)),
      .ofNat (0x80 + (n &&& 0x3F))]
  | 2 => [.ofNat (0xC0 + (n >>> 6)), .ofNat (0x80 + (n &&& 0x3F))]
  | _ => [.ofNat (c % 256).toNat]

section Code

variable (native : Endianness) (fresh : ℕ → UInt8)

/-- `sexp_make_bytes` without an initial value. -/
def sexpMakeBytes (len : ℤ) : Except String (List UInt8) :=
  if len < 0 then .error "negative length" else .ok ((List.range len.toNat).map fresh)

/-- The loop that swaps the bytes of the first words of an object. -/
def swapWords (width : ℕ) (swap : ℕ → ℕ) : ℕ → List UInt8 → Option (List UInt8)
  | 0, bv => some bv
  | i + 1, bv => do
      let bv ← swapWords width swap i bv
      let n ← loadWord native width bv (width * i)
      storeBytes bv (width * i) (wordBytes native width (swap n))

/-- The first loop of `str2utf16`; a step moves on by one byte at least, so `len` steps
are enough. -/
def utf16Count (s : List UInt8) (q : ℤ) : ℕ → ℕ → ℕ → Option ℕ
  | 0, _, utf16Len => some utf16Len
  | fuel + 1, p, utf16Len =>
    if p < q then do
      let chLen := sexpUtf8InitialByteCount (← byteAt s p)
      utf16Count s q fuel (p + chLen) ((if chLen = 4 then utf16Len + 1 else utf16Len) + 1)
    else some utf16Len

/-- The second loop of `str2utf16`, with the index of the next word. -/
def utf16Fill (s : List UInt8) (q : ℤ) : ℕ → ℕ → ℕ → List UInt8 → Option (List UInt8)
  | 0, _, _, bv => some bv
  | fuel + 1, p, utf16, bv =>
    if p < q then do
      let chLen := sexpUtf8InitialByteCount (← byteAt s p)
      let ch ← decodeUtf8 s p chLen
      if chLen = 4 then
        let hi := (0xD800 - (0x10000 >>> 10) + (ch >>> 10)) % 2 ^ 16
        let lo := (0xDC00 + (ch &&& 0x3FF)) % 2 ^ 16
        let bv ← storeBytes bv (2 * utf16) (wordBytes native 2 hi)
        let bv ← storeBytes bv (2 * (utf16 + 1)) (wordBytes native 2 lo)
        utf16Fill s q fuel (p + chLen) (utf16 + 2) bv
      else
        let bv ← storeBytes bv (2 * utf16) (wordBytes native 2 (ch % 2 ^ 16))
        utf16Fill s q fuel (p + chLen) (utf16 + 1) bv
    else some bv

/-- `str2utf16` -/
def str2utf16 (s : List UInt8) (len : ℤ) (endianness : Endianness) :
    Option (Except String (List UInt8)) := do
  let utf16Len ← utf16Count s len len.toNat 0 0
  match sexpMakeBytes fresh (utf16Len * 2) with
  | .error message => return .error message
  | .ok bv => do
      let bv ← utf16Fill native s len len.toNat 0 0 bv
      let bv ← if endianness ≠ native then swapWords native 2 sexpSwapU16 utf16Len bv else some bv
      return .ok bv

/-- The product by four in a C `int`. -/
def timesFour (n : ℤ) : Option ℤ :=
  if -2 ^ 31 ≤ n * 4 ∧ n * 4 < 2 ^ 31 then some (n * 4) else none

/-- The loop of `str2utf32`. -/
def utf32Fill (s : List UInt8) (q : ℤ) : ℕ → ℕ → ℕ → List UInt8 → Option (List UInt8)
  | 0, _, _, bv => some bv
  | fuel + 1, p, utf32, bv =>
    if p < q then do
      let chLen := sexpUtf8InitialByteCount (← byteAt s p)
      let ch ← decodeUtf8 s p chLen
      let bv ← storeBytes bv (4 * utf32) (wordBytes native 4 (ch % 2 ^ 32))
      utf32Fill s q fuel (p + chLen) (utf32 + 1) bv
    else some bv

/-- `str2utf32` -/
def str2utf32 (s : List UInt8) (len utf32Len : ℤ) (endianness : Endianness) :
    Option (Except String (List UInt8)) := do
  match sexpMakeBytes fresh (← timesFour utf32Len) with
  | .error message => return .error message
  | .ok bv => do
      let bv ← utf32Fill native s len len.toNat 0 0 bv
      let bv ←
        if endianness ≠ native then swapWords native 4 sexpSwapU32 utf32Len.toNat bv else some bv
      return .ok bv

/-- The word of a bytevector at `i`, swapped or not. -/
def refU16 (swap : Bool) (bv : List UInt8) (i : ℕ) : Option ℕ := do
  let n ← loadWord native 2 bv i
  return if swap then sexpSwapU16 n else n

/-- The character at `i` that both loops of `utf16_2_str` read into the 16 bits of `ch`,
and the offset of the next one. -/
def utf16Next (swap : Bool) (bv : List UInt8) (len : ℤ) (i : ℕ) : Option (ℕ × ℕ) := do
  let ch ← refU16 native swap bv i
  if 0xd800 ≤ ch ∧ ch ≤ 0xdbff ∧ (i : ℤ) + 3 < len then
    let ch2 ← refU16 native swap bv (i + 2)
    if 0xdc00 ≤ ch2 ∧ ch2 ≤ 0xdfff then
      return ((0x10000 + (((ch - 0xd800) <<< 10) ||| (ch2 - 0xdc00))) % 2 ^ 16, i + 4)
    else return (ch, i + 2)
  else return (ch, i + 2)

/-- The character at `i` that both loops of `utf32_2_str` read. -/
def utf32Next (swap : Bool) (bv : List UInt8) (_len : ℤ) (i : ℕ) : Option (ℕ × ℕ) := do
  let n ← loadWord native 4 bv i
  return (if swap then sexpSwapU32 n else n, i + 4)

/-- The first loop of `utf16_2_str` and `utf32_2_str`, for words of `width` bytes. -/
def utf8Size (next : List UInt8 → ℤ → ℕ → Option (ℕ × ℕ)) (width : ℕ) (bv : List UInt8) (len : ℤ) :
    ℕ → ℕ → ℕ → Option ℕ
  | 0, _, utf8Len => some utf8Len
  | fuel + 1, i, utf8Len =>
    if (i : ℤ) + width - 1 < len then do
      let (ch, i) ← next bv len i
      utf8Size next width bv len fuel i (utf8Len + utf8CharByteCount (cInt ch))
    else some utf8Len

/-- Their second loop. -/
def utf8Fill (next : List UInt8 → ℤ → ℕ → Option (ℕ × ℕ)) (width : ℕ) (bv : List UInt8) (len : ℤ) :
    ℕ → ℕ → ℕ → List UInt8 → Option (List UInt8)
  | 0, _, _, res => some res
  | fuel + 1, i, dst, res =>
    if (i : ℤ) + width - 1 < len then do
      let (ch, i) ← next bv len i
      let chLen := utf8CharByteCount (cInt ch)
      let res ← storeBytes res dst (utf8EncodeChar chLen (cInt ch))
      utf8Fill next width bv len fuel i (dst + chLen) res
    else some res

/-- The part that `utf16_2_str` and `utf32_2_str` share, from the offset `start` on. -/
def decodeWords (next : List UInt8 → ℤ → ℕ → Option (ℕ × ℕ)) (width : ℕ) (bv : List UInt8)
    (len : ℤ) (start : ℕ) : Option (Except String (List UInt8)) := do
  let utf8Len ← utf8Size next width bv len len.toNat start 0
  match sexpMakeBytes fresh utf8Len with
  | .error message => return .error message
  | .ok res => do
      let res ← utf8Fill next width bv len len.toNat start 0 res
      return .ok res

/-- `utf16_2_str`; a byte order mark is looked for when the endianness is not
mandatory. -/
def utf16_2_str (bv : List UInt8) (len : ℤ) (endianness : Endianness) (mandatory : Bool) :
    Option (Except String (List UInt8)) := do
  let swap : Bool := endianness ≠ native
  let (swap, start) ←
    if !mandatory ∧ len > 1 then do
      let ch ← loadWord native 2 bv 0
      pure (if ch = 0xFFFE then (true, 2) else if ch = 0xFEFF then (swap, 2) else (swap, 0))
    else pure (swap, 0)
  decodeWords fresh (utf16Next native swap) 2 bv len start

/-- `utf32_2_str` -/
def utf32_2_str (bv : List UInt8) (len : ℤ) (endianness : Endianness) (mandatory : Bool) :
    Option (Except String (List UInt8)) := do
  let swap : Bool := endianness ≠ native
  let (swap, start) ←
    if !mandatory ∧ len > 3 then do
      let ch ← loadWord native 4 bv 0
      pure (if ch = 0xFFFE0000 then (true, 4) else if ch = 0xFEFF then (swap, 4) else (swap, 0))
    else pure (swap, 0)
  decodeWords fresh (utf32Next native swap) 4 bv len start

/-- `%string->utf16` and back, with a mandatory endianness; the sizes are passed as C
`int`s. -/
def utf16Trip (endianness : Endianness) (s : List UInt8) : Option (Except String (List UInt8)) := do
  match ← str2utf16 native fresh s (cInt s.length) endianness with
  | .error message => return .error message
  | .ok bv => utf16_2_str native fresh bv (cInt bv.length) endianness true

/-- `%string->utf32` and back. -/
def utf32Trip (endianness : Endianness) (s : List UInt8) : Option (Except String (List UInt8)) := do
  let length ← sexpStringUtf8Length s s.length
  match ← str2utf32 native fresh s (cInt s.length) (cInt length) endianness with
  | .error message => return .error message
  | .ok bv => utf32_2_str native fresh bv (cInt bv.length) endianness true

end Code

/-! ## Bytes of words -/

@[simp] theorem length_littleBytes (width n : ℕ) : (littleBytes width n).length = width := by
  induction width generalizing n with
  | zero => rfl
  | succ width ih => rw [littleBytes, length_cons, ih]

@[simp] theorem length_wordBytes (order : Endianness) (width n : ℕ) :
    (wordBytes order width n).length = width := by
  cases order with
  | big => exact (length_reverse ..).trans (length_littleBytes width n)
  | little => exact length_littleBytes width n

theorem ofLittle_littleBytes (width n : ℕ) : ofLittle (littleBytes width n) = n % 256 ^ width := by
  induction width generalizing n with
  | zero => rw [pow_zero, Nat.mod_one]; rfl
  | succ width ih =>
    have hlow : (UInt8.ofNat n).toNat = n % 256 := UInt8.toNat_ofNat'
    rw [littleBytes, ofLittle, ih, hlow, pow_succ', Nat.mod_mul]

theorem littleBytes_ofLittle (bytes : List UInt8) :
    littleBytes bytes.length (ofLittle bytes) = bytes := by
  induction bytes with
  | nil => rfl
  | cons b bytes ih =>
    have hlt := b.toNat_lt
    have hlow : UInt8.ofNat (b.toNat + 256 * ofLittle bytes) = b := by
      apply UInt8.toNat_inj.mp
      rw [UInt8.toNat_ofNat']
      omega
    have hhigh : (b.toNat + 256 * ofLittle bytes) / 256 = ofLittle bytes := by omega
    rw [length_cons, ofLittle, littleBytes, hlow, hhigh, ih]

variable {width n : ℕ}

theorem ofBytes_wordBytes (order : Endianness) (hlt : n < 256 ^ width) :
    ofBytes order (wordBytes order width n) = n := by
  have hlittle : ofLittle (littleBytes width n) = n := by
    rw [ofLittle_littleBytes, Nat.mod_eq_of_lt hlt]
  cases order with
  | big =>
    rw [ofBytes, wordBytes, reverse_reverse]
    exact hlittle
  | little => exact hlittle

/-- The function reverses the bytes of every word. -/
def Swaps (width : ℕ) (swap : ℕ → ℕ) : Prop :=
  ∀ n < 256 ^ width, swap n = ofLittle (littleBytes width n).reverse

private theorem littleBytes_reversed (width n : ℕ) :
    littleBytes width (ofLittle (littleBytes width n).reverse) = (littleBytes width n).reverse := by
  have hback := littleBytes_ofLittle (littleBytes width n).reverse
  rwa [length_reverse, length_littleBytes] at hback

variable {swap : ℕ → ℕ} {order other : Endianness}

theorem wordBytes_swap (hswap : Swaps width swap) (hne : other ≠ order) (hlt : n < 256 ^ width) :
    wordBytes order width (swap n) = wordBytes other width n := by
  rw [hswap n hlt]
  cases order with
  | big =>
    cases other with
    | big => exact absurd rfl hne
    | little => rw [wordBytes, wordBytes, littleBytes_reversed, reverse_reverse]
  | little =>
    cases other with
    | big => exact littleBytes_reversed width n
    | little => exact absurd rfl hne

theorem swap_ofBytes (hswap : Swaps width swap) (hne : other ≠ order) (hlt : n < 256 ^ width) :
    swap (ofBytes order (wordBytes other width n)) = n := by
  have hread : ofBytes order (wordBytes other width n) =
      ofLittle (littleBytes width n).reverse := by
    cases order with
    | big =>
      cases other with
      | big => exact absurd rfl hne
      | little => rfl
    | little =>
      cases other with
      | big => rfl
      | little => exact absurd rfl hne
  have hread_lt : ofLittle (littleBytes width n).reverse < 256 ^ width := by
    have hmod := ofLittle_littleBytes width (ofLittle (littleBytes width n).reverse)
    rw [littleBytes_reversed] at hmod
    rw [hmod]
    exact Nat.mod_lt _ (Nat.pow_pos (by decide))
  rw [hread, hswap _ hread_lt, littleBytes_reversed, reverse_reverse, ofLittle_littleBytes,
    Nat.mod_eq_of_lt hlt]

private theorem and_shifted (x m k : ℕ) : x &&& (m <<< k) = ((x >>> k) &&& m) <<< k := by
  apply Nat.eq_of_testBit_eq
  intro i
  simp only [Nat.testBit_and, Nat.testBit_shiftLeft, Nat.testBit_shiftRight]
  by_cases hle : k ≤ i
  · simp [hle, Nat.add_sub_cancel' hle]
  · simp [hle]

private theorem and_byte (x : ℕ) : x &&& 0xff = x % 256 := Nat.and_two_pow_sub_one_eq_mod x 8

private theorem or_above {a k : ℕ} (hlt : a < 2 ^ k) (b : ℕ) :
    a ||| (b <<< k) = a + b * 2 ^ k := by
  rw [Nat.or_comm, ← Nat.shiftLeft_add_eq_or_of_lt hlt, Nat.shiftLeft_eq, Nat.add_comm]

private theorem toNat_ofNat_mod (n : ℕ) : (UInt8.ofNat n).toNat = n % 256 := UInt8.toNat_ofNat'

theorem sexpSwapU16_swaps : Swaps 2 sexpSwapU16 := by
  intro n hlt
  have hhigh : n >>> 8 = n / 256 := Nat.shiftRight_eq_div_pow n 8
  have hbits : n / 256 ||| (n % 256) <<< 8 = n / 256 + n % 256 * 256 :=
    or_above (k := 8) (by omega) _
  rw [sexpSwapU16, and_byte, hhigh, hbits]
  simp only [littleBytes, reverse_cons, reverse_nil, nil_append, cons_append,
    ofLittle, toNat_ofNat_mod]
  have hquot : n / 256 < 256 := by omega
  have hrem : n % 256 < 256 := Nat.mod_lt _ (by decide)
  generalize n / 256 = q at hquot ⊢
  generalize n % 256 = r at hrem ⊢
  omega

theorem sexpSwapU32_swaps : Swaps 4 sexpSwapU32 := by
  intro n hlt
  have hfirst : n >>> 24 = n / 16777216 := Nat.shiftRight_eq_div_pow n 24
  have hsecond : (n <<< 8) &&& 0xff0000 = (n / 256 % 256) <<< 16 := by
    have hshift : (n <<< 8) >>> 16 = n / 256 := by
      rw [Nat.shiftLeft_eq, Nat.shiftRight_eq_div_pow]
      omega
    rw [show 0xff0000 = 0xff <<< 16 from rfl, and_shifted, and_byte, hshift]
  have hthird : (n >>> 8) &&& 0xff00 = (n / 65536 % 256) <<< 8 := by
    have hshift : (n >>> 8) >>> 8 = n / 65536 := by
      rw [Nat.shiftRight_eq_div_pow, Nat.shiftRight_eq_div_pow]
      omega
    rw [show 0xff00 = 0xff <<< 8 from rfl, and_shifted, and_byte, hshift]
  have hfourth : (n <<< 24) &&& 0xff000000 = (n % 256) <<< 24 := by
    have hshift : (n <<< 24) >>> 24 = n := by
      rw [Nat.shiftLeft_eq, Nat.shiftRight_eq_div_pow]
      omega
    rw [show 0xff000000 = 0xff <<< 24 from rfl, and_shifted, and_byte, hshift]
  have hbits : n / 16777216 % 256 ||| (n / 65536 % 256) <<< 8 ||| (n / 256 % 256) <<< 16 |||
      (n % 256) <<< 24 = n / 16777216 % 256 + n / 65536 % 256 * 2 ^ 8 + n / 256 % 256 * 2 ^ 16 +
        n % 256 * 2 ^ 24 := by
    rw [or_above (k := 8) (by omega), or_above (k := 16) (by omega), or_above (k := 24) (by omega)]
  rw [sexpSwapU32, and_byte, hfirst, hsecond, hthird, hfourth,
    Nat.or_right_comm _ ((n / 256 % 256) <<< 16)]
  have htop : n / 16777216 % 256 = n / 16777216 := Nat.mod_eq_of_lt (by omega)
  rw [htop] at hbits
  simp only [littleBytes, reverse_cons, reverse_nil, nil_append, cons_append,
    ofLittle, toNat_ofNat_mod, Nat.div_div_eq_div_mul, Nat.reduceMul]
  rw [htop, hbits]
  omega

/-! ## Words along a split of an object -/

/-- Words as bytes. -/
def memory (order : Endianness) (width : ℕ) (ws : List ℕ) : List UInt8 :=
  ws.flatMap (wordBytes order width)

@[simp] theorem memory_nil (order : Endianness) (width : ℕ) : memory order width [] = [] := rfl

theorem memory_append (order : Endianness) (width : ℕ) (ws vs : List ℕ) :
    memory order width (ws ++ vs) = memory order width ws ++ memory order width vs :=
  flatMap_append

theorem memory_cons (order : Endianness) (width w : ℕ) (ws : List ℕ) :
    memory order width (w :: ws) = wordBytes order width w ++ memory order width ws := rfl

@[simp] theorem length_memory (order : Endianness) (width : ℕ) (ws : List ℕ) :
    (memory order width ws).length = width * ws.length := by
  induction ws with
  | nil => rfl
  | cons w ws ih =>
    rw [memory_cons, length_append, ih, length_wordBytes, length_cons, Nat.mul_succ, Nat.add_comm]

variable {bytes : List UInt8} {i : ℕ}

theorem storeBytes_split {before old after : List UInt8} (hi : i = before.length)
    (hlen : old.length = bytes.length) :
    storeBytes (before ++ (old ++ after)) i bytes = some (before ++ (bytes ++ after)) := by
  have hdrop : (before ++ (old ++ after)).drop (before.length + bytes.length) = after := by
    rw [← hlen, ← length_append, ← append_assoc, drop_left]
  rw [hi, storeBytes, if_pos, take_left, hdrop]
  simp only [length_append]
  omega

variable {written junk : List UInt8}

theorem storeBytes_next (hi : i = written.length) (hlen : bytes.length ≤ junk.length) :
    storeBytes (written ++ junk) i bytes = some (written ++ bytes ++ junk.drop bytes.length) := by
  have hsplit := @storeBytes_split bytes i written (junk.take bytes.length)
    (junk.drop bytes.length) hi (length_take_of_le hlen)
  rwa [take_append_drop, ← append_assoc] at hsplit

theorem loadWord_split {before after : List UInt8} (order : Endianness) (hi : i = before.length)
    (hlen : bytes.length = width) :
    loadWord order width (before ++ (bytes ++ after)) i = some (ofBytes order bytes) := by
  rw [hi, loadWord, if_pos, drop_left, ← hlen, take_left]
  simp only [length_append]
  omega

theorem loadWord_memory (order other : Endianness) (width : ℕ) (ws vs : List ℕ) (w : ℕ)
    (hi : i = width * ws.length) :
    loadWord order width (memory other width (ws ++ w :: vs)) i =
      some (ofBytes order (wordBytes other width w)) := by
  rw [memory_append, memory_cons]
  apply loadWord_split
  · rw [hi, length_memory]
  · exact length_wordBytes other width w

variable (native : Endianness)

theorem swapWords_memory (before after : List ℕ) (hlt : ∀ w ∈ before, w < 256 ^ width) :
    swapWords native width swap before.length (memory native width (before ++ after)) =
      some (memory native width (before.map swap) ++ memory native width after) := by
  induction before using List.reverseRecOn generalizing after with
  | nil => rfl
  | append_singleton before w ih =>
    have hbefore : ∀ v ∈ before, v < 256 ^ width := fun v hv =>
      hlt v (mem_append_left _ hv)
    have hw : w < 256 ^ width := hlt w (by simp)
    have hnext := ih (w :: after) hbefore
    rw [append_assoc, singleton_append, length_append, length_singleton, swapWords, hnext]
    have hload : loadWord native width
        (memory native width (before.map swap) ++ memory native width (w :: after))
        (width * before.length) = some w := by
      rw [memory_cons, loadWord_split native (by simp) (length_wordBytes native width w),
        ofBytes_wordBytes native hw]
    rw [bind_eq_bind, bind_some, hload, bind_eq_bind, bind_some,
      memory_cons, storeBytes_split (by simp) (by simp), map_append, memory_append]
    simp [memory_cons]

theorem memory_map_swap (hswap : Swaps width swap) (hne : other ≠ order) {ws : List ℕ}
    (hlt : ∀ w ∈ ws, w < 256 ^ width) :
    memory order width (ws.map swap) = memory other width ws := by
  induction ws with
  | nil => rfl
  | cons w ws ih =>
    rw [map_cons, memory_cons, memory_cons, wordBytes_swap hswap hne (hlt w (by simp)),
      ih fun v hv => hlt v (mem_cons_of_mem w hv)]

/-! ## From strings to words -/

theorem decodeUtf8_shape {c : ℕ} (hshape : Shape c bytes) (before after : List UInt8) :
    decodeUtf8 (before ++ (bytes ++ after)) before.length bytes.length = some c := by
  have and_six : ∀ n : ℕ, n &&& 0x3F = n % 64 := fun n => Nat.and_two_pow_sub_one_eq_mod n 6
  have and_five : ∀ n : ℕ, n &&& 0x1F = n % 32 := fun n => Nat.and_two_pow_sub_one_eq_mod n 5
  have and_four : ∀ n : ℕ, n &&& 0x0F = n % 16 := fun n => Nat.and_two_pow_sub_one_eq_mod n 4
  have hbyte : ∀ {k : ℕ} {b : UInt8}, bytes[k]? = some b →
      byteAt (before ++ (bytes ++ after)) (before.length + k) = some b.toNat := by
    intro k b hunit
    apply byteAt_of_getElem?
    rw [getElem?_append_right (by omega), Nat.add_sub_cancel_left,
      getElem?_append_left (List.getElem?_eq_some_iff.mp hunit).1, hunit]
  have hfirst : ∀ {b : UInt8}, bytes[0]? = some b →
      byteAt (before ++ (bytes ++ after)) before.length = some b.toNat := fun hunit => hbyte hunit
  cases hshape with
  | one h0 hc =>
    rw [decodeUtf8, if_pos (by simp), hfirst rfl, h0]
  | two h0 h1 ha he hc =>
    rw [decodeUtf8, if_neg (by simp), if_pos (by simp)]
    simp only [hfirst rfl, hbyte (k := 1) rfl, h0, h1, and_six, Nat.shiftLeft_eq,
      bind_eq_bind, bind_some]
    exact congrArg some (by omega)
  | three h0 h1 h2 ha hd he hc =>
    rw [decodeUtf8, if_neg (by simp), if_neg (by simp), if_pos (by simp)]
    simp only [hfirst rfl, hbyte (k := 1) rfl, hbyte (k := 2) rfl, h0, h1, h2, and_six,
      and_five, Nat.shiftLeft_eq, bind_eq_bind, bind_some]
    exact congrArg some (by omega)
  | four h0 h1 h2 h3 ha hb hd he hc =>
    rw [decodeUtf8, if_neg (by simp), if_neg (by simp), if_neg (by simp)]
    simp only [hfirst rfl, hbyte (k := 1) rfl, hbyte (k := 2) rfl, hbyte (k := 3) rfl, h0, h1,
      h2, h3, and_six, and_four, Nat.shiftLeft_eq, bind_eq_bind, bind_some]
    exact congrArg some (by omega)

/-- The words that `str2utf16` writes for a character. -/
def units (c : Char) : List ℕ :=
  if c.toNat < 0x10000 then [c.toNat]
  else [0xD800 - (0x10000 >>> 10) + (c.toNat >>> 10), 0xDC00 + (c.toNat &&& 0x3FF)]

variable (before after : List Char) (c : Char)

theorem length_encodeChar_eq_four : (encodeChar c).length = 4 ↔ 0x10000 ≤ c.toNat := by
  have hshape := encodeChar_shape c
  generalize encodeChar c = bytes at hshape
  cases hshape with
  | one h0 hc => simp; omega
  | two h0 h1 ha he hc => simp; omega
  | three h0 h1 h2 ha hd he hc => simp; omega
  | four h0 h1 h2 h3 ha hb hd he hc hlow => simpa using hlow

theorem length_units : (units c).length = if (encodeChar c).length = 4 then 2 else 1 := by
  unfold units
  split
  · rename_i hlow
    rw [if_neg fun hfour => absurd ((length_encodeChar_eq_four c).mp hfour) (by omega)]
    rfl
  · rename_i hhigh
    rw [if_pos ((length_encodeChar_eq_four c).mpr (by omega))]
    rfl

theorem units_lt : ∀ w ∈ units c, w < 256 ^ 2 := by
  have hlt := char_toNat_lt c
  have hand : c.toNat &&& 0x3FF = c.toNat % 1024 := Nat.and_two_pow_sub_one_eq_mod c.toNat 10
  have hshift : c.toNat >>> 10 = c.toNat / 1024 := Nat.shiftRight_eq_div_pow c.toNat 10
  intro w hw
  unfold units at hw
  rw [hand, hshift] at hw
  split at hw
  · rw [mem_singleton.mp hw]
    omega
  · simp only [mem_cons, not_mem_nil, or_false] at hw
    rcases hw with hw | hw <;> omega

theorem read_split :
    (encodeString before).length < (encodeString (before ++ c :: after)).length ∧
    (∃ byte, byteAt (encodeString (before ++ c :: after)) (encodeString before).length = some byte ∧
      sexpUtf8InitialByteCount byte = (encodeChar c).length) ∧
    decodeUtf8 (encodeString (before ++ c :: after)) (encodeString before).length
      (encodeChar c).length = some c.toNat ∧
    (encodeString before).length + (encodeChar c).length =
      (encodeString (before ++ [c])).length := by
  rw [encodeString_append, encodeString_cons]
  refine ⟨?_, byteAt_lead _ c _, decodeUtf8_shape (encodeChar_shape c) _ _, ?_⟩
  · have hpos := length_encodeChar_pos c
    simp only [length_append]
    omega
  · simp [encodeString]

private theorem snoc_append : before ++ [c] ++ after = before ++ c :: after := by
  rw [append_assoc, singleton_append]

variable {fuel : ℕ}

theorem utf16Count_split (hfuel : after.length ≤ fuel) (utf16Len : ℕ) :
    utf16Count (encodeString (before ++ after)) (encodeString (before ++ after)).length fuel
        (encodeString before).length utf16Len =
      some (utf16Len + (after.flatMap units).length) := by
  induction after generalizing before fuel utf16Len with
  | nil =>
    cases fuel with
    | zero => rfl
    | succ fuel => simp [utf16Count]
  | cons c after ih =>
    cases fuel with
    | zero => exact absurd hfuel (by simp)
    | succ fuel =>
      obtain ⟨hlt, ⟨byte, hbyte, hcount⟩, -, hnext⟩ := read_split before after c
      have hrest := ih (before ++ [c]) (Nat.le_of_succ_le_succ hfuel)
        ((if (encodeChar c).length = 4 then utf16Len + 1 else utf16Len) + 1)
      rw [snoc_append] at hrest
      rw [utf16Count, if_pos (by exact_mod_cast hlt), hbyte, bind_eq_bind,
        bind_some, hcount]
      dsimp only
      rw [hnext, hrest, flatMap_cons, length_append, length_units]
      congr 1
      split <;> omega

theorem utf16Fill_cons (fuel : ℕ) {utf16 : ℕ} (hwritten : written.length = 2 * utf16)
    (hjunk : 2 * (units c).length ≤ junk.length) :
    utf16Fill native (encodeString (before ++ c :: after)) (encodeString (before ++ c :: after)).length
        (fuel + 1) (encodeString before).length utf16 (written ++ junk) =
      utf16Fill native (encodeString (before ++ c :: after))
        (encodeString (before ++ c :: after)).length fuel (encodeString (before ++ [c])).length
        (utf16 + (units c).length)
        (written ++ memory native 2 (units c) ++ junk.drop (2 * (units c).length)) := by
  obtain ⟨hlt, ⟨byte, hbyte, hcount⟩, hdecode, hnext⟩ := read_split before after c
  have hunits_lt := units_lt c
  rw [utf16Fill, if_pos (by exact_mod_cast hlt), hbyte, bind_eq_bind, bind_some,
    hcount]
  dsimp only
  rw [hdecode, bind_eq_bind, bind_some, hnext]
  by_cases hfour : (encodeChar c).length = 4
  · have hhigh := (length_encodeChar_eq_four c).mp hfour
    have hunits : units c =
        [0xD800 - (0x10000 >>> 10) + (c.toNat >>> 10), 0xDC00 + (c.toNat &&& 0x3FF)] :=
      if_neg (by omega)
    rw [hunits] at hunits_lt hjunk ⊢
    have hhi := Nat.mod_eq_of_lt (hunits_lt _ mem_cons_self)
    have hlo := Nat.mod_eq_of_lt (hunits_lt _ (mem_cons_of_mem _ mem_cons_self))
    rw [if_pos hfour, show 2 ^ 16 = 256 ^ 2 from rfl, hhi, hlo]
    generalize 0xD800 - (0x10000 >>> 10) + (c.toNat >>> 10) = hi
    generalize 0xDC00 + (c.toNat &&& 0x3FF) = lo
    simp only [length_cons, length_nil] at hjunk
    rw [storeBytes_next hwritten.symm (by rw [length_wordBytes]; omega), bind_some,
      storeBytes_next _ _, bind_some]
    · simp [memory_cons, drop_drop]
    · simp only [length_append, length_wordBytes, hwritten]
      omega
    · simp only [length_drop, length_wordBytes]
      omega
  · have hlow : c.toNat < 0x10000 := by
      have hnot := mt (length_encodeChar_eq_four c).mpr hfour
      omega
    have hunits : units c = [c.toNat] := if_pos hlow
    have hmod : c.toNat % 2 ^ 16 = c.toNat := Nat.mod_eq_of_lt hlow
    rw [hunits] at hjunk ⊢
    rw [if_neg hfour, hmod, storeBytes_next hwritten.symm (by simpa using hjunk),
      bind_some]
    simp [memory_cons]

theorem utf16Fill_split (hfuel : after.length ≤ fuel) {utf16 : ℕ}
    (hwritten : written.length = 2 * utf16)
    (hjunk : junk.length = 2 * (after.flatMap units).length) :
    utf16Fill native (encodeString (before ++ after)) (encodeString (before ++ after)).length fuel
        (encodeString before).length utf16 (written ++ junk) =
      some (written ++ memory native 2 (after.flatMap units)) := by
  induction after generalizing before fuel written junk utf16 with
  | nil =>
    have hnil : junk = [] := length_eq_zero_iff.mp hjunk
    cases fuel with
    | zero => rw [utf16Fill, hnil]; rfl
    | succ fuel =>
      rw [utf16Fill, if_neg (by simp), hnil]
      rfl
  | cons c after ih =>
    cases fuel with
    | zero => exact absurd hfuel (by simp)
    | succ fuel =>
      rw [flatMap_cons, length_append] at hjunk
      have hrest := @ih (written ++ memory native 2 (units c)) (junk.drop (2 * (units c).length))
        (before ++ [c]) fuel (Nat.le_of_succ_le_succ hfuel) (utf16 + (units c).length)
        (by rw [length_append, length_memory, hwritten, Nat.mul_add])
        (by rw [length_drop]; omega)
      rw [snoc_append] at hrest
      rw [utf16Fill_cons native before after c fuel hwritten (by omega), hrest,
        flatMap_cons, memory_append, append_assoc]

theorem str2utf16_encode (fresh : ℕ → UInt8) (endianness : Endianness) (cs : List Char) :
    str2utf16 native fresh (encodeString cs) (encodeString cs).length endianness =
      some (.ok (memory endianness 2 (cs.flatMap units))) := by
  have hfuel : cs.length ≤ (encodeString cs).length := length_le_encodeString cs
  have hcount := utf16Count_split [] cs hfuel 0
  have hlt : ∀ w ∈ cs.flatMap units, w < 256 ^ 2 := by
    intro w hw
    obtain ⟨c, -, hmem⟩ := List.mem_flatMap.mp hw
    exact units_lt c w hmem
  have hbytes : sexpMakeBytes fresh (((cs.flatMap units).length : ℕ) * 2 : ℤ) =
      .ok ((List.range ((cs.flatMap units).length * 2)).map fresh) := by
    rw [sexpMakeBytes, if_neg (by omega)]
    rfl
  have hfill := @utf16Fill_split [] ((List.range ((cs.flatMap units).length * 2)).map fresh) native [] cs _
    hfuel 0 rfl
    (by rw [length_map, length_range, Nat.mul_comm])
  have hzero : (encodeString []).length = 0 := rfl
  rw [nil_append, hzero, Nat.zero_add] at hcount
  rw [nil_append, nil_append, nil_append, hzero] at hfill
  rw [str2utf16, Int.toNat_natCast, hcount, bind_eq_bind, bind_some, hbytes]
  dsimp only
  rw [hfill, bind_eq_bind, bind_some]
  split
  · rename_i hne
    have hswap := @swapWords_memory _ sexpSwapU16 native (cs.flatMap units) [] hlt
    rw [append_nil, memory_nil, append_nil, memory_map_swap sexpSwapU16_swaps hne hlt]
      at hswap
    rw [hswap]
    rfl
  · rename_i heq
    rw [not_not.mp heq]
    rfl

theorem utf32Fill_split (hfuel : after.length ≤ fuel) {utf32 : ℕ}
    (hwritten : written.length = 4 * utf32) (hjunk : junk.length = 4 * after.length) :
    utf32Fill native (encodeString (before ++ after)) (encodeString (before ++ after)).length fuel
        (encodeString before).length utf32 (written ++ junk) =
      some (written ++ memory native 4 (after.map Char.toNat)) := by
  induction after generalizing before fuel written junk utf32 with
  | nil =>
    have hnil : junk = [] := length_eq_zero_iff.mp hjunk
    cases fuel with
    | zero => rw [utf32Fill, hnil]; rfl
    | succ fuel =>
      rw [utf32Fill, if_neg (by simp), hnil]
      rfl
  | cons c after ih =>
    cases fuel with
    | zero => exact absurd hfuel (by simp)
    | succ fuel =>
      obtain ⟨hlt, ⟨byte, hbyte, hcount⟩, hdecode, hnext⟩ := read_split before after c
      have hmod : c.toNat % 2 ^ 32 = c.toNat :=
        Nat.mod_eq_of_lt ((char_toNat_lt c).trans (by decide))
      rw [length_cons] at hjunk
      have hrest := @ih (written ++ wordBytes native 4 c.toNat) (junk.drop 4) (before ++ [c]) fuel
        (Nat.le_of_succ_le_succ hfuel) (utf32 + 1)
        (by rw [length_append, length_wordBytes, hwritten, Nat.mul_succ])
        (by rw [length_drop]; omega)
      rw [snoc_append] at hrest
      rw [utf32Fill, if_pos (by exact_mod_cast hlt), hbyte, bind_eq_bind,
        bind_some, hcount]
      dsimp only
      rw [hdecode, bind_eq_bind, bind_some, hnext, hmod,
        storeBytes_next hwritten.symm (by rw [length_wordBytes]; omega), bind_some,
        length_wordBytes, hrest, map_cons, memory_cons, append_assoc]

theorem str2utf32_encode (fresh : ℕ → UInt8) (endianness : Endianness) {cs : List Char}
    (hlength : cs.length < 2 ^ 29) :
    str2utf32 native fresh (encodeString cs) (encodeString cs).length cs.length endianness =
      some (.ok (memory endianness 4 (cs.map Char.toNat))) := by
  have hfuel : cs.length ≤ (encodeString cs).length := length_le_encodeString cs
  have hlt : ∀ w ∈ cs.map Char.toNat, w < 256 ^ 4 := by
    intro w hw
    obtain ⟨c, -, heq⟩ := List.mem_map.mp hw
    rw [← heq]
    exact (char_toNat_lt c).trans (by decide)
  have htimes : timesFour cs.length = some (cs.length * 4 : ℤ) := if_pos (by omega)
  have hbytes : sexpMakeBytes fresh (cs.length * 4 : ℤ) =
      .ok ((List.range (cs.length * 4)).map fresh) := by
    rw [sexpMakeBytes, if_neg (by omega)]
    rfl
  have hfill := @utf32Fill_split [] ((List.range (cs.length * 4)).map fresh) native [] cs _ hfuel 0 rfl
    (by rw [length_map, length_range, Nat.mul_comm])
  have hzero : (encodeString []).length = 0 := rfl
  rw [nil_append, nil_append, nil_append, hzero] at hfill
  rw [str2utf32, htimes, bind_eq_bind, bind_some, hbytes]
  dsimp only
  rw [Int.toNat_natCast, hfill, bind_eq_bind, bind_some]
  split
  · rename_i hne
    have hswap := @swapWords_memory _ sexpSwapU32 native (cs.map Char.toNat) [] hlt
    rw [append_nil, memory_nil, append_nil, memory_map_swap sexpSwapU32_swaps hne hlt,
      length_map] at hswap
    rw [Int.toNat_natCast, hswap]
    rfl
  · rename_i heq
    rw [not_not.mp heq]
    rfl

/-! ## From words to strings -/

/-- The bytes that a decoding loop writes for a value of `ch`. -/
def recode (ch : ℕ) : List UInt8 := utf8EncodeChar (utf8CharByteCount (cInt ch)) (cInt ch)

theorem cInt_of_lt (hlt : n < 2 ^ 31) : cInt n = n := by
  unfold cInt
  rw [Int.bmod_eq_of_le] <;> omega

theorem length_recode (ch : ℕ) : (recode ch).length = utf8CharByteCount (cInt ch) := by
  unfold recode utf8CharByteCount
  split
  · rfl
  · split
    · rfl
    · split <;> rfl

theorem recode_toNat : recode c.toNat = encodeChar c := by
  have hlt := char_toNat_lt c
  have hint : cInt c.toNat = c.toNat := cInt_of_lt (hlt.trans (by decide))
  have hcount : utf8CharByteCount c.toNat = sexpUtf8CharByteCount c.toNat := by
    unfold utf8CharByteCount sexpUtf8CharByteCount
    split_ifs <;> omega
  rw [recode, encodeChar, hint, hcount]
  unfold sexpUtf8CharByteCount
  split
  · have hbyte : ((c.toNat : ℤ) % 256).toNat = c.toNat % 256 := by omega
    have hcut : UInt8.ofNat (c.toNat % 256) = UInt8.ofNat c.toNat :=
      UInt8.toNat_inj.mp (by simp)
    change [UInt8.ofNat ((c.toNat : ℤ) % 256).toNat] = [UInt8.ofNat c.toNat]
    rw [hbyte, hcut]
  · split
    · rfl
    · split <;> rfl

/-- The offset behind characters that take `size` bytes each. -/
def total (size : Char → ℕ) (cs : List Char) : ℕ := (cs.map size).sum

/-- At the start of each of the characters that an object is made of, a value for it
is read. -/
structure Reads (next : List UInt8 → ℤ → ℕ → Option (ℕ × ℕ)) (width : ℕ) (bv : List UInt8)
    (size value : Char → ℕ) (cs : List Char) : Prop where
  next_eq : ∀ before c after, cs = before ++ c :: after →
    next bv bv.length (total size before) = some (value c, total size before + size c)
  width_pos : 0 < width
  width_le : ∀ c, width ≤ size c
  length_eq : bv.length = total size cs

section Reads

variable {next : List UInt8 → ℤ → ℕ → Option (ℕ × ℕ)} {width : ℕ} {bv : List UInt8}
  {size value : Char → ℕ} {cs : List Char}

private theorem total_snoc (before : List Char) (c : Char) :
    total size (before ++ [c]) = total size before + size c := by
  simp [total]

private theorem total_append (before after : List Char) :
    total size (before ++ after) = total size before + total size after := by
  simp [total]

variable {before after : List Char}

variable (hreads : Reads next width bv size value cs)
include hreads

theorem Reads.lt_length {c : Char}
    (hcs : cs = before ++ c :: after) :
    (total size before : ℤ) + width - 1 < bv.length := by
  have hle := hreads.width_le c
  have hcons : total size (c :: after) = size c + total size after := by simp [total]
  rw [hreads.length_eq, hcs, total_append, hcons]
  omega

theorem Reads.not_lt_length :
    ¬(total size cs : ℤ) + width - 1 < bv.length := by
  have hpos := hreads.width_pos
  rw [hreads.length_eq]
  omega

theorem Reads.utf8Size_eq (hcs : cs = before ++ after) {fuel : ℕ} (hfuel : after.length ≤ fuel) (utf8Len : ℕ) :
    utf8Size next width bv bv.length fuel (total size before) utf8Len =
      some (utf8Len + (after.flatMap fun c => recode (value c)).length) := by
  induction after generalizing before fuel utf8Len with
  | nil =>
    cases fuel with
    | zero => rfl
    | succ fuel =>
      rw [append_nil] at hcs
      rw [utf8Size, if_neg (hcs ▸ hreads.not_lt_length)]
      rfl
  | cons c after ih =>
    cases fuel with
    | zero => exact absurd hfuel (by simp)
    | succ fuel =>
      have hrest := @ih (before ++ [c]) (by rw [hcs, snoc_append]) fuel
        (Nat.le_of_succ_le_succ hfuel) (utf8Len + utf8CharByteCount (cInt (value c)))
      rw [utf8Size, if_pos (hreads.lt_length hcs), hreads.next_eq before c after hcs,
        bind_eq_bind, bind_some]
      dsimp only
      rw [← total_snoc, hrest, flatMap_cons, length_append, length_recode, Nat.add_assoc]

theorem Reads.utf8Fill_eq (hcs : cs = before ++ after) {fuel : ℕ} (hfuel : after.length ≤ fuel)
    {written junk : List UInt8}
    (hjunk : junk.length = (after.flatMap fun c => recode (value c)).length) :
    utf8Fill next width bv bv.length fuel (total size before) written.length (written ++ junk) =
      some (written ++ after.flatMap fun c => recode (value c)) := by
  induction after generalizing before fuel written junk with
  | nil =>
    have hnil : junk = [] := length_eq_zero_iff.mp hjunk
    cases fuel with
    | zero => rw [utf8Fill, hnil]; rfl
    | succ fuel =>
      rw [append_nil] at hcs
      rw [utf8Fill, if_neg (hcs ▸ hreads.not_lt_length), hnil]
      rfl
  | cons c after ih =>
    cases fuel with
    | zero => exact absurd hfuel (by simp)
    | succ fuel =>
      rw [flatMap_cons, length_append] at hjunk
      have hrest := @ih (before ++ [c]) (by rw [hcs, snoc_append]) fuel
        (Nat.le_of_succ_le_succ hfuel) (written ++ recode (value c))
        (junk.drop (recode (value c)).length) (by rw [length_drop]; omega)
      rw [utf8Fill, if_pos (hreads.lt_length hcs), hreads.next_eq before c after hcs,
        bind_eq_bind, bind_some]
      dsimp only
      have hstore := @storeBytes_next (recode (value c)) _ written junk rfl (by omega)
      rw [recode] at hstore
      rw [hstore, bind_eq_bind, bind_some, ← recode, ← total_snoc,
        ← length_recode, ← length_append, hrest, flatMap_cons, append_assoc]

theorem Reads.decodeWords_eq (fresh : ℕ → UInt8) :
    decodeWords fresh next width bv bv.length 0 =
      some (.ok (cs.flatMap fun c => recode (value c))) := by
  have hfuel : cs.length ≤ bv.length := by
    rw [hreads.length_eq, total]
    have hsum : (cs.map size).length ≤ (cs.map size).sum := by
      apply length_le_sum_of_one_le
      intro n hn
      obtain ⟨c, -, heq⟩ := List.mem_map.mp hn
      rw [← heq]
      exact hreads.width_pos.trans_le (hreads.width_le c)
    rwa [length_map] at hsum
  have hsize := hreads.utf8Size_eq (nil_append cs).symm hfuel 0
  generalize hbytes : (cs.flatMap fun c => recode (value c)) = bytes at hsize
  have hmake : sexpMakeBytes fresh bytes.length = .ok ((List.range bytes.length).map fresh) := by
    rw [sexpMakeBytes, if_neg (by omega)]
    rfl
  have hfill := @Reads.utf8Fill_eq next width bv size value cs [] cs hreads rfl _ hfuel []
    ((List.range bytes.length).map fresh) (by simp [hbytes])
  have hzero : total size [] = 0 := rfl
  rw [hzero, Nat.zero_add] at hsize
  rw [hzero, hbytes, nil_append, nil_append, length_nil] at hfill
  rw [decodeWords, Int.toNat_natCast, hsize, bind_eq_bind, bind_some, hmake]
  dsimp only
  rw [hfill]
  rfl

end Reads

/-! ## What the code writes is read back -/

theorem total_units (cs : List Char) :
    total (fun c => 2 * (units c).length) cs = 2 * (cs.flatMap units).length := by
  induction cs with
  | nil => rfl
  | cons c cs ih =>
    rw [flatMap_cons, length_append, Nat.mul_add, ← ih]
    simp [total]

theorem total_four (cs : List Char) : total (fun _ => 4) cs = 4 * cs.length := by
  simp [total, Nat.mul_comm]

theorem refU16_memory (endianness : Endianness) (ws vs : List ℕ) {w : ℕ} (hlt : w < 256 ^ 2)
    (hi : i = 2 * ws.length) :
    refU16 native (endianness ≠ native) (memory endianness 2 (ws ++ w :: vs)) i = some w := by
  rw [refU16, loadWord_memory native endianness 2 ws vs w hi, bind_eq_bind, bind_some]
  by_cases hne : endianness ≠ native
  · rw [if_pos (decide_eq_true hne), swap_ofBytes sexpSwapU16_swaps hne hlt]
    rfl
  · rw [if_neg (by simpa using hne), not_not.mp hne, ofBytes_wordBytes native hlt]
    rfl

theorem reads_utf16 (endianness : Endianness) (cs : List Char) :
    Reads (utf16Next native (endianness ≠ native)) 2 (memory endianness 2 (cs.flatMap units))
      (fun c => 2 * (units c).length) (fun c => c.toNat % 2 ^ 16) cs where
  width_pos := by decide
  width_le c := by
    rw [length_units]
    split <;> decide
  length_eq := by rw [length_memory, total_units]
  next_eq := by
    intro before c after hcs
    have hlt := char_toNat_lt c
    rw [hcs, flatMap_append, flatMap_cons, total_units]
    generalize before.flatMap units = ws
    generalize after.flatMap units = vs
    by_cases hlow : c.toNat < 0x10000
    · have hunits : units c = [c.toNat] := if_pos hlow
      have hvalid := c.valid
      have hword := refU16_memory native endianness ws vs (w := c.toNat) hlow rfl
      rw [hunits, singleton_append, utf16Next, hword, bind_eq_bind, bind_some, if_neg]
      · have hmod : c.toNat % 2 ^ 16 = c.toNat := Nat.mod_eq_of_lt hlow
        rw [hmod]
        rfl
      · change c.val.toNat < 0xd800 ∨ 0xdfff < c.val.toNat ∧ c.val.toNat < 0x110000 at hvalid
        change ¬(0xd800 ≤ c.val.toNat ∧ c.val.toNat ≤ 0xdbff ∧ _)
        omega
    · have hand : c.toNat &&& 0x3FF = c.toNat % 1024 := Nat.and_two_pow_sub_one_eq_mod c.toNat 10
      have hshift : c.toNat >>> 10 = c.toNat / 1024 := Nat.shiftRight_eq_div_pow c.toNat 10
      have hunits : units c = [0xD7C0 + c.toNat / 1024, 0xDC00 + c.toNat % 1024] := by
        rw [← hand, ← hshift]
        exact if_neg hlow
      have hhi := refU16_memory native endianness ws ((0xDC00 + c.toNat % 1024) :: vs)
        (w := 0xD7C0 + c.toNat / 1024) (by omega) rfl
      have hlo := refU16_memory native endianness (ws ++ [0xD7C0 + c.toNat / 1024]) vs
        (w := 0xDC00 + c.toNat % 1024) (i := 2 * ws.length + 2) (by omega)
        (by rw [length_append]; rfl)
      rw [append_assoc, singleton_append] at hlo
      rw [hunits, cons_append, singleton_append, utf16Next, hhi, bind_eq_bind,
        bind_some, if_pos, hlo, bind_some, if_pos (by omega)]
      · have hor : (0xD7C0 + c.toNat / 1024 - 0xd800) <<< 10 ||| (0xDC00 + c.toNat % 1024 - 0xdc00)
            = c.toNat - 0x10000 := by
          rw [Nat.or_comm, or_above (by omega)]
          omega
        have hsum : 0x10000 + (c.toNat - 0x10000) = c.toNat := by omega
        rw [hor, hsum]
        rfl
      · simp only [length_memory, length_append, length_cons]
        omega

theorem reads_utf32 (endianness : Endianness) (cs : List Char) :
    Reads (utf32Next native (endianness ≠ native)) 4 (memory endianness 4 (cs.map Char.toNat))
      (fun _ => 4) Char.toNat cs where
  width_pos := by decide
  width_le c := le_rfl
  length_eq := by rw [length_memory, total_four, length_map]
  next_eq := by
    intro before c after hcs
    have hlt : c.toNat < 256 ^ 4 := (char_toNat_lt c).trans (by decide)
    rw [hcs, map_append, map_cons, total_four, utf32Next,
      loadWord_memory native endianness 4 _ _ c.toNat (by rw [length_map]),
      bind_eq_bind, bind_some]
    by_cases hne : endianness ≠ native
    · rw [if_pos (decide_eq_true hne), swap_ofBytes sexpSwapU32_swaps hne hlt]
      rfl
    · rw [if_neg (by simpa using hne), not_not.mp hne, ofBytes_wordBytes native hlt]
      rfl

section Trips

variable (native : Endianness) (fresh : ℕ → UInt8) (endianness : Endianness)

theorem length_encodeChar_le (c : Char) : (encodeChar c).length ≤ 4 := by
  have hshape := encodeChar_shape c
  generalize encodeChar c = bytes at hshape
  cases hshape <;> simp

theorem length_flatMap_le {α : Type} {f : Char → List α} {k : ℕ} (hle : ∀ c, (f c).length ≤ k)
    (cs : List Char) : (cs.flatMap f).length ≤ k * cs.length := by
  induction cs with
  | nil => exact Nat.zero_le _
  | cons c cs ih =>
    have hc := hle c
    rw [flatMap_cons, length_append, length_cons, Nat.mul_succ]
    omega

variable {bv bv' : List UInt8} {i : ℕ}

variable {cs : List Char}

theorem utf16Trip_eq (hlength : cs.length < 2 ^ 29) :
    utf16Trip native fresh endianness (encodeString cs) =
      some (.ok (cs.flatMap fun c => recode (c.toNat % 2 ^ 16))) := by
  have hfour : (encodeString cs).length ≤ 4 * cs.length :=
    length_flatMap_le length_encodeChar_le cs
  have htwo : (cs.flatMap units).length ≤ 2 * cs.length := by
    apply length_flatMap_le
    intro c
    rw [length_units]
    split <;> decide
  have hstring : cInt (encodeString cs).length = (encodeString cs).length :=
    cInt_of_lt (by omega)
  have hbytes : cInt (memory endianness 2 (cs.flatMap units)).length =
      (memory endianness 2 (cs.flatMap units)).length := by
    apply cInt_of_lt
    rw [length_memory]
    omega
  rw [utf16Trip, hstring, str2utf16_encode, bind_eq_bind, bind_some]
  dsimp only
  rw [hbytes]
  exact (reads_utf16 native endianness cs).decodeWords_eq fresh

theorem utf32Trip_eq (hlength : cs.length < 2 ^ 29) :
    utf32Trip native fresh endianness (encodeString cs) = some (.ok (encodeString cs)) := by
  have hfour : (encodeString cs).length ≤ 4 * cs.length :=
    length_flatMap_le length_encodeChar_le cs
  have hstring : cInt (encodeString cs).length = (encodeString cs).length :=
    cInt_of_lt (by omega)
  have hcount : sexpStringUtf8Length (encodeString cs) (encodeString cs).length =
      some cs.length := by
    rw [← offset_length]
    exact sexpStringUtf8Length_offset le_rfl
  have hchars : cInt cs.length = cs.length := cInt_of_lt (by omega)
  have hbytes : cInt (memory endianness 4 (cs.map Char.toNat)).length =
      (memory endianness 4 (cs.map Char.toNat)).length := by
    apply cInt_of_lt
    rw [length_memory, length_map]
    omega
  rw [utf32Trip, hcount, bind_eq_bind, bind_some, hstring, hchars,
    str2utf32_encode native fresh endianness hlength, bind_eq_bind, bind_some]
  dsimp only
  rw [hbytes]
  have hdecode := (reads_utf32 native endianness cs).decodeWords_eq fresh
  simp only [recode_toNat] at hdecode
  exact hdecode

/-! ## Strings that are too long -/

theorem length_storeBytes {bytes : List UInt8} (hstore : storeBytes bv i bytes = some bv') :
    bv'.length = bv.length := by
  unfold storeBytes at hstore
  split at hstore
  · rename_i hle
    rw [← some.inj hstore]
    simp only [length_append, length_take, length_drop]
    omega
  · exact absurd hstore (by simp)

theorem length_swapWords {width : ℕ} {swap : ℕ → ℕ} {k : ℕ}
    (hswap : swapWords native width swap k bv = some bv') : bv'.length = bv.length := by
  induction k generalizing bv' with
  | zero => rw [← some.inj hswap]
  | succ k ih =>
    obtain ⟨mid, hmid, hrest⟩ := bind_eq_some_iff.mp hswap
    obtain ⟨n, -, hstore⟩ := bind_eq_some_iff.mp hrest
    exact (length_storeBytes hstore).trans (ih hmid)

variable {s : List UInt8} {fuel : ℕ}

theorem length_utf32Fill {q : ℤ} {p utf32 : ℕ}
    (hfill : utf32Fill native s q fuel p utf32 bv = some bv') : bv'.length = bv.length := by
  induction fuel generalizing p utf32 bv with
  | zero => rw [← some.inj hfill]
  | succ fuel ih =>
    rw [utf32Fill] at hfill
    split at hfill
    · obtain ⟨byte, -, hfill⟩ := bind_eq_some_iff.mp hfill
      obtain ⟨ch, -, hfill⟩ := bind_eq_some_iff.mp hfill
      obtain ⟨mid, hstore, hrest⟩ := bind_eq_some_iff.mp hfill
      exact (ih hrest).trans (length_storeBytes hstore)
    · rw [← some.inj hfill]

variable {len : ℤ}

theorem length_utf8Fill {next : List UInt8 → ℤ → ℕ → Option (ℕ × ℕ)} {width : ℕ}
    {res res' : List UInt8} {dst : ℕ}
    (hfill : utf8Fill next width bv len fuel i dst res = some res') :
    res'.length = res.length := by
  induction fuel generalizing i dst res with
  | zero => rw [← some.inj hfill]
  | succ fuel ih =>
    rw [utf8Fill] at hfill
    split at hfill
    · obtain ⟨⟨ch, i'⟩, -, hfill⟩ := bind_eq_some_iff.mp hfill
      obtain ⟨mid, hstore, hrest⟩ := bind_eq_some_iff.mp hfill
      exact (ih hrest).trans (length_storeBytes hstore)
    · rw [← some.inj hfill]

theorem utf8CharByteCount_le (c : ℤ) : utf8CharByteCount c ≤ 4 := by
  unfold utf8CharByteCount
  split_ifs <;> decide

theorem utf8Size_le {swap : Bool} {utf8Len size : ℕ}
    (hsize : utf8Size (utf32Next native swap) 4 bv len fuel i utf8Len = some size) :
    size ≤ utf8Len + (len.toNat - i) := by
  induction fuel generalizing i utf8Len with
  | zero =>
    rw [← some.inj hsize]
    exact Nat.le_add_right _ _
  | succ fuel ih =>
    rw [utf8Size] at hsize
    split at hsize
    · rename_i hlt
      obtain ⟨⟨ch, i'⟩, hnext, hrest⟩ := bind_eq_some_iff.mp hsize
      obtain ⟨n, -, hpair⟩ := bind_eq_some_iff.mp hnext
      have hi : i + 4 = i' := (Prod.mk.inj (some.inj hpair)).2
      have hle := ih hrest
      have hchar := utf8CharByteCount_le (cInt ch)
      omega
    · rw [← some.inj hsize]
      exact Nat.le_add_right _ _

theorem length_str2utf32 {utf32Len : ℤ}
    (hresult : str2utf32 native fresh s len utf32Len endianness = some (.ok bv)) :
    ∃ n, timesFour utf32Len = some n ∧ bv.length = n.toNat := by
  rw [str2utf32] at hresult
  obtain ⟨n, hn, hmake⟩ := bind_eq_some_iff.mp hresult
  refine ⟨n, hn, ?_⟩
  unfold sexpMakeBytes at hmake
  split at hmake
  · exact absurd hmake (by simp)
  rename_i made hmade
  split at hmade
  · exact absurd hmade (by simp)
  obtain ⟨filled, hfill, hrest⟩ := bind_eq_some_iff.mp hmake
  have hmade' : made.length = n.toNat := by
    rw [← Except.ok.inj hmade, length_map, length_range]
  have hfilled := length_utf32Fill native hfill
  dsimp only at hrest
  split at hrest
  · obtain ⟨swapped, hswapped, hbv⟩ := bind_eq_some_iff.mp hrest
    rw [← Except.ok.inj (some.inj hbv), length_swapWords native hswapped, hfilled, hmade']
  · rw [← Except.ok.inj (some.inj hrest), hfilled, hmade']

theorem length_decodeWords {swap : Bool}
    (hdecode : decodeWords fresh (utf32Next native swap) 4 bv len 0 = some (.ok s)) :
    s.length ≤ len.toNat := by
  rw [decodeWords] at hdecode
  obtain ⟨size, hsize, hmake⟩ := bind_eq_some_iff.mp hdecode
  unfold sexpMakeBytes at hmake
  split at hmake
  · exact absurd hmake (by simp)
  rename_i made hmade
  split at hmade
  · exact absurd hmade (by simp)
  · obtain ⟨filled, hfill, hs⟩ := bind_eq_some_iff.mp hmake
    have hle := utf8Size_le native hsize
    rw [← Except.ok.inj (some.inj hs), length_utf8Fill hfill, ← Except.ok.inj hmade,
      length_map, length_range, Int.toNat_natCast]
    omega

theorem utf32_2_str_mandatory (bv : List UInt8) (len : ℤ) :
    utf32_2_str native fresh bv len endianness true =
      decodeWords fresh (utf32Next native (endianness ≠ native)) 4 bv len 0 :=
  rfl

theorem length_utf32Trip
    (htrip : utf32Trip native fresh endianness (encodeString cs) = some (.ok s)) :
    ∃ n : ℤ, timesFour (cInt cs.length) = some n ∧ s.length ≤ n.toNat := by
  have hcount : sexpStringUtf8Length (encodeString cs) (encodeString cs).length =
      some cs.length := by
    rw [← offset_length]
    exact sexpStringUtf8Length_offset le_rfl
  rw [utf32Trip, hcount, bind_eq_bind, bind_some] at htrip
  obtain ⟨result, hresult, hback⟩ := bind_eq_some_iff.mp htrip
  cases result with
  | error message => exact absurd hback (by simp)
  | ok bv =>
    obtain ⟨n, hn, hbv⟩ := length_str2utf32 native fresh endianness hresult
    refine ⟨n, hn, ?_⟩
    have hdecode := (utf32_2_str_mandatory native fresh endianness bv _).symm.trans hback
    have hsize : s.length ≤ (cInt bv.length).toNat :=
      length_decodeWords native fresh hdecode
    have hrange : n.toNat < 2 ^ 31 := by
      unfold timesFour at hn
      split at hn
      · rename_i hrange
        have heq := some.inj hn
        omega
      · exact absurd hn (by simp)
    have hsmall : bv.length < 2 ^ 31 := hbv.trans_lt hrange
    rw [cInt_of_lt hsmall, Int.toNat_natCast, hbv] at hsize
    exact hsize

theorem utf32Trip_iff (cs : List Char) :
    utf32Trip native fresh endianness (encodeString cs) = some (.ok (encodeString cs)) ↔
      cs.length < 2 ^ 29 := by
  constructor
  · intro htrip
    obtain ⟨n, htimes, hle⟩ := length_utf32Trip native fresh endianness htrip
    have hsize := length_le_encodeString cs
    unfold timesFour at htimes
    split at htimes
    · rename_i hrange
      have hn : cInt cs.length * 4 = n := some.inj htimes
      by_contra hlong
      by_cases hint : cs.length < 2 ^ 31
      · rw [cInt_of_lt hint] at hrange
        omega
      · omega
    · exact absurd htimes (by simp)
  · exact utf32Trip_eq native fresh endianness

theorem length_recode_lt {c : Char} (hhigh : 0x10000 ≤ c.toNat) :
    (recode (c.toNat % 2 ^ 16)).length < (encodeChar c).length := by
  have hcut : c.toNat % 2 ^ 16 < 2 ^ 16 := Nat.mod_lt _ (by decide)
  rw [(length_encodeChar_eq_four c).mpr hhigh, length_recode, cInt_of_lt (by omega),
    utf8CharByteCount]
  split_ifs
  · decide
  · decide
  · decide
  · omega

theorem length_recode_le (c : Char) :
    (recode (c.toNat % 2 ^ 16)).length ≤ (encodeChar c).length := by
  by_cases hlow : c.toNat < 0x10000
  · have hmod : c.toNat % 2 ^ 16 = c.toNat := Nat.mod_eq_of_lt hlow
    rw [hmod, recode_toNat]
  · exact (length_recode_lt (Nat.le_of_not_lt hlow)).le

theorem length_flatMap_recode_le (cs : List Char) :
    (cs.flatMap fun c => recode (c.toNat % 2 ^ 16)).length ≤ (encodeString cs).length := by
  induction cs with
  | nil =>
    rw [flatMap_nil]
    exact Nat.zero_le _
  | cons c cs ih =>
    rw [flatMap_cons, encodeString_cons, length_append, length_append]
    exact Nat.add_le_add (length_recode_le c) ih

theorem cut_eq_iff (cs : List Char) :
    (cs.flatMap fun c => recode (c.toNat % 2 ^ 16)) = encodeString cs ↔
      ∀ c ∈ cs, c.toNat < 0x10000 := by
  constructor
  · intro heq c hc
    by_contra hhigh
    obtain ⟨before, after, rfl⟩ := append_of_mem hc
    have hbefore := length_flatMap_recode_le before
    have hafter := length_flatMap_recode_le after
    have hchar := length_recode_lt (Nat.le_of_not_lt hhigh)
    have hlength := congrArg List.length heq
    rw [flatMap_append, flatMap_cons, encodeString_append, encodeString_cons] at hlength
    simp only [length_append] at hlength
    omega
  · intro hlow
    apply flatMap_congr
    intro c hc
    have hmod : c.toNat % 2 ^ 16 = c.toNat := Nat.mod_eq_of_lt (hlow c hc)
    rw [hmod, recode_toNat]

/-- Both trips bring a string back if and only if all of its characters are in the basic
plane and its size in UTF-32 is a C `int`. -/
theorem utfTrips_iff (cs : List Char) :
    (utf16Trip native fresh endianness (encodeString cs) = some (.ok (encodeString cs)) ∧
      utf32Trip native fresh endianness (encodeString cs) = some (.ok (encodeString cs))) ↔
      (∀ c ∈ cs, c.toNat < 0x10000) ∧ cs.length < 2 ^ 29 := by
  rw [utf32Trip_iff, and_congr_left_iff]
  intro hlength
  rw [utf16Trip_eq native fresh endianness hlength, Option.some.injEq, Except.ok.injEq]
  exact cut_eq_iff cs

end Trips

/-- An emoji comes back from UTF-16 as another character. -/
theorem utf16Trip_emoji :
    utf16Trip .little (fun _ => 0) .big (encodeString [Char.ofNat 0x1F600]) =
      some (.ok (encodeString [Char.ofNat 0xF600])) ∧
    encodeString [Char.ofNat 0x1F600] ≠ encodeString [Char.ofNat 0xF600] := by
  decide +kernel

end ChibiScheme.Utf16
