import ChibiScheme.Lib.Blocks
import Mathlib.Data.List.TakeDrop
import Mathlib.Data.List.GetD
import Mathlib.Algebra.Order.Group.Nat

/-!
# SHA-2

The digest of a message that comes in pieces.  The bytes that do not fill a chunk of 64 bytes wait in a
buffer for the next piece.

The functions that move the bytes have the function that compresses a chunk as a parameter.  Lengths
are those of a machine with 64-bit words.
-/

namespace ChibiScheme.Crypto

/-! ## The compression function -/

/-- `h224` -/
def h224 : List UInt32 :=
  [0xC1059ED8, 0x367CD507, 0x3070DD17, 0xF70E5939,
   0xFFC00B31, 0x68581511, 0x64F98FA7, 0xBEFA4FA4]

/-- `h256` -/
def h256 : List UInt32 :=
  [0x6A09E667, 0xBB67AE85, 0x3C6EF372, 0xA54FF53A,
   0x510E527F, 0x9B05688C, 0x1F83D9AB, 0x5BE0CD19]

/-- `k256` -/
def k256 : List UInt32 :=
  [0x428A2F98, 0x71374491, 0xB5C0FBCF, 0xE9B5DBA5,
   0x3956C25B, 0x59F111F1, 0x923F82A4, 0xAB1C5ED5,
   0xD807AA98, 0x12835B01, 0x243185BE, 0x550C7DC3,
   0x72BE5D74, 0x80DEB1FE, 0x9BDC06A7, 0xC19BF174,
   0xE49B69C1, 0xEFBE4786, 0x0FC19DC6, 0x240CA1CC,
   0x2DE92C6F, 0x4A7484AA, 0x5CB0A9DC, 0x76F988DA,
   0x983E5152, 0xA831C66D, 0xB00327C8, 0xBF597FC7,
   0xC6E00BF3, 0xD5A79147, 0x06CA6351, 0x14292967,
   0x27B70A85, 0x2E1B2138, 0x4D2C6DFC, 0x53380D13,
   0x650A7354, 0x766A0ABB, 0x81C2C92E, 0x92722C85,
   0xA2BFE8A1, 0xA81A664B, 0xC24B8B70, 0xC76C51A3,
   0xD192E819, 0xD6990624, 0xF40E3585, 0x106AA070,
   0x19A4C116, 0x1E376C08, 0x2748774C, 0x34B0BCB5,
   0x391C0CB3, 0x4ED8AA4A, 0x5B9CCA4F, 0x682E6FF3,
   0x748F82EE, 0x78A5636F, 0x84C87814, 0x8CC70208,
   0x90BEFFFA, 0xA4506CEB, 0xBEF9A3F7, 0xC67178F2]

/-- `ror32` -/
def ror32 (v a : UInt32) : UInt32 :=
  (v >>> a) ||| (v <<< (32 - a))

/-- The first 16 words of the schedule. -/
def chunkWords : List UInt8 → List UInt32
  | b0 :: b1 :: b2 :: b3 :: rest =>
    ((b0.toUInt32 <<< 24) ||| (b1.toUInt32 <<< 16) ||| (b2.toUInt32 <<< 8) ||| b3.toUInt32)
      :: chunkWords rest
  | _ => []

/-- The other words, each from those before it. -/
def extendSchedule : ℕ → List UInt32 → List UInt32
  | 0, w => w
  | count + 1, w =>
    let i := w.length
    let w15 := w.getD (i - 15) 0
    let w2 := w.getD (i - 2) 0
    extendSchedule count (w ++ [w.getD (i - 16) 0
      + (ror32 w15 7 ^^^ ror32 w15 18 ^^^ (w15 >>> 3))
      + w.getD (i - 7) 0
      + (ror32 w2 17 ^^^ ror32 w2 19 ^^^ (w2 >>> 10))])

/-- The working variables of the main loop. -/
structure Working where
  (a b c d e f g h : UInt32)
deriving DecidableEq

/-- One round of the main loop, with `k256[i]` and `w[i]`. -/
def Working.next (v : Working) (k w : UInt32) : Working :=
  let tmp1 := v.h
    + (ror32 v.e 6 ^^^ ror32 v.e 11 ^^^ ror32 v.e 25)
    + ((v.e &&& v.f) ^^^ (~~~v.e &&& v.g))
    + k
    + w
  let tmp2 := (ror32 v.a 2 ^^^ ror32 v.a 13 ^^^ ror32 v.a 22)
    + ((v.a &&& v.b) ^^^ (v.a &&& v.c) ^^^ (v.b &&& v.c))
  { h := v.g, g := v.f, f := v.e, e := v.d + tmp1,
    d := v.c, c := v.b, b := v.a, a := tmp1 + tmp2 }

/-- `sha_224_256_round` -/
def sha224256Round (chunk : List UInt8) (hash : List UInt32) : List UInt32 :=
  let w := extendSchedule 48 (chunkWords chunk)
  let start : Working :=
    { a := hash.getD 0 0, b := hash.getD 1 0, c := hash.getD 2 0, d := hash.getD 3 0,
      e := hash.getD 4 0, f := hash.getD 5 0, g := hash.getD 6 0, h := hash.getD 7 0 }
  let v := (k256.zip w).foldl (fun v kw => v.next kw.1 kw.2) start
  List.zipWith (· + ·) hash [v.a, v.b, v.c, v.d, v.e, v.f, v.g, v.h]

/-! ## The context -/

/-- The supported digests. -/
inductive ShaType where
  | sha224
  | sha256
deriving DecidableEq

/-- `struct sha_context`; `H` is the type of the intermediate hash. -/
structure ShaContext (H : Type) where
  type : ShaType
  isSealed : Bool
  len : ℕ
  hash256 : H
  buffer : List UInt8
deriving DecidableEq

/-- `memcpy` and `memset`: some bytes of the buffer are replaced. -/
def writeAt (buffer : List UInt8) (offset : ℕ) (bytes : List UInt8) : List UInt8 :=
  buffer.take offset ++ bytes ++ buffer.drop (offset + bytes.length)

section Context

variable {H : Type} (round : List UInt8 → H → H)

/-- A context that `calloc` has cleared. -/
def startContext (type : ShaType) (hash256 : H) : ShaContext H where
  type := type
  isSealed := false
  len := 0
  hash256 := hash256
  buffer := List.replicate 128 0

/-- `while ((buf_offset < 64) && (src_offset < len))`; there are at most 64 rounds. -/
def fillBuffer (src : List UInt8) : ℕ → List UInt8 → ℕ → ℕ → List UInt8 × ℕ × ℕ
  | 0, buffer, bufOffset, srcOffset => (buffer, bufOffset, srcOffset)
  | fuel + 1, buffer, bufOffset, srcOffset =>
    if bufOffset < 64 ∧ srcOffset < src.length then
      fillBuffer src fuel (buffer.set bufOffset (src.getD srcOffset 0)) (bufOffset + 1)
        (srcOffset + 1)
    else (buffer, bufOffset, srcOffset)

/-- `for ( ; src_offset <= (len - 64); src_offset += 64)`; there are at most `len` rounds. -/
def wholeChunks (src : List UInt8) : ℕ → ℕ → H → ℕ × H
  | 0, srcOffset, hash256 => (srcOffset, hash256)
  | fuel + 1, srcOffset, hash256 =>
    if srcOffset ≤ src.length - 64 then
      wholeChunks src fuel (srcOffset + 64) (round ((src.drop srcOffset).take 64) hash256)
    else (srcOffset, hash256)

/-- What `sha_224_256_add_bytes` does after it has filled the buffer. -/
def addWholeChunks (sha : ShaContext H) (src : List UInt8) (bufOffset srcOffset : ℕ) :
    ShaContext H :=
  let len := src.length
  let (srcOffset, hash256) :=
    if len ≥ 64 then wholeChunks round src len srcOffset sha.hash256 else (srcOffset, sha.hash256)
  let buffer :=
    if srcOffset < len then writeAt sha.buffer bufOffset (src.drop srcOffset) else sha.buffer
  { sha with hash256, buffer }

/-- `sha_224_256_add_bytes` -/
def sha224256AddBytes (sha : ShaContext H) (src : List UInt8) : ShaContext H :=
  let bufOffset := sha.len % 64
  let sha := { sha with len := (sha.len + src.length) % 2 ^ 64 }
  if bufOffset ≠ 0 then
    let (buffer, bufOffset, srcOffset) := fillBuffer src 64 sha.buffer bufOffset 0
    if bufOffset = 64 then
      addWholeChunks round { sha with buffer, hash256 := round (buffer.take 64) sha.hash256 } src
        bufOffset srcOffset
    else { sha with buffer }
  else addWholeChunks round sha src bufOffset 0

/-- A number in `count` bytes. -/
def bigEndian : ℕ → ℕ → List UInt8
  | 0, _ => []
  | count + 1, n => bigEndian count (n / 256) ++ [UInt8.ofNat n]

/-- `sha_224_256_remainder`: the padding.  The result is the buffer and the hash. -/
def sha224256Remainder (chunk : List UInt8) (offset lenBits : ℕ) (hash256 : H) : List UInt8 × H :=
  let chunk := writeAt chunk offset [0x80]
  let chunk := writeAt chunk (offset + 1) (List.replicate (64 - offset - 1) 0)
  let (chunk, hash256) :=
    if offset ≥ 56 then (writeAt chunk 0 (List.replicate 64 0), round (chunk.take 64) hash256)
    else (chunk, hash256)
  let chunk := writeAt chunk 56 (bigEndian 8 lenBits)
  (chunk, round (chunk.take 64) hash256)

/-- What `sexp_get_sha` does first. -/
def sealContext (sha : ShaContext H) : ShaContext H :=
  if sha.isSealed then sha
  else
    let (buffer, hash256) :=
      sha224256Remainder round sha.buffer (sha.len % 64) (sha.len * 8 % 2 ^ 64) sha.hash256
    { sha with isSealed := true, hash256, buffer }

end Context

/-! ## The interface -/

/-- The data that is added: a bytevector, the UTF-8 encoding of a string, or something else. -/
inductive Data where
  | bytes (data : List UInt8)
  | string (data : List UInt8)
  | other

/-- `sexp_start_sha` -/
def sexpStartSha (type : ℕ) : Except String (ShaContext (List UInt32)) :=
  match type with
  | 0 => .ok (startContext .sha224 h224)
  | 1 => .ok (startContext .sha256 h256)
  | _ => .error "SHA-2 digest type not supported"

/-- `sexp_add_sha_data` -/
def sexpAddShaData (sha : ShaContext (List UInt32)) (data : Data) :
    Except String (ShaContext (List UInt32)) :=
  if sha.isSealed then .error "cannot add to sealed context"
  else
    match data with
    | .bytes data => .ok (sha224256AddBytes sha224256Round sha data)
    | .string data => .ok (sha224256AddBytes sha224256Round sha data)
    | .other => .error "data type not supported"

/-- A digit of the digest. -/
def hexDigit (n : UInt32) : Char :=
  "0123456789abcdef".toList.getD n.toNat '0'

/-- The digits of a word. -/
def nibbles : ℕ → UInt32 → List Char
  | 0, _ => []
  | count + 1, nextWord => nibbles count (nextWord >>> 4) ++ [hexDigit (nextWord &&& 0xF)]

/-- `sha_224_256_hash_string` -/
def sha224256HashString (hash : List UInt32) (count : ℕ) : List Char :=
  (hash.take count).flatMap (nibbles 8)

/-- How many words of the hash make the digest. -/
def ShaType.count : ShaType → ℕ
  | sha224 => 7
  | sha256 => 8

/-- `sexp_get_sha`: the digest and the context. -/
def sexpGetSha (sha : ShaContext (List UInt32)) : List Char × ShaContext (List UInt32) :=
  let sha := sealContext sha224256Round sha
  (sha224256HashString sha.hash256 sha.type.count, sha)

/-- Data added one after the other. -/
def addPieces (sha : ShaContext (List UInt32)) (pieces : List Data) :
    Except String (ShaContext (List UInt32)) :=
  pieces.foldlM sexpAddShaData sha

/-! ## Pieces of a message

What a context holds of the bytes that were added.  If a piece fills the buffer and leaves a
remainder, the remainder is not copied to the start of the buffer, and the bytes there are taken for it. -/

open Blocks

variable {H : Type} {round : List UInt8 → H → H} {buffer src bytes c l : List UInt8} {h₀ : H}

/-! ## The buffer -/

variable {offset : ℕ}

theorem length_writeAt (hle : offset + bytes.length ≤ buffer.length) :
    (writeAt buffer offset bytes).length = buffer.length := by
  unfold writeAt
  simp only [List.length_append, List.length_take, List.length_drop]
  omega

theorem writeAt_nil (offset : ℕ) : writeAt buffer offset [] = buffer := by
  unfold writeAt
  rw [List.append_nil, List.length_nil, Nat.add_zero, List.take_append_drop]

variable {count : ℕ}

theorem take_writeAt (hle : offset ≤ buffer.length) (hcount : count = offset + bytes.length) :
    (writeAt buffer offset bytes).take count = buffer.take offset ++ bytes := by
  unfold writeAt
  rw [List.take_left']
  rw [List.length_append, List.length_take, hcount]
  omega

theorem take_writeAt_of_le (hle : count ≤ offset) (hoffset : offset ≤ buffer.length) :
    (writeAt buffer offset bytes).take count = buffer.take count := by
  unfold writeAt
  rw [List.append_assoc, List.take_append_of_le_length, List.take_take, Nat.min_eq_left hle]
  rw [List.length_take]
  omega

theorem set_eq_writeAt (hlt : offset < buffer.length) (x : UInt8) :
    buffer.set offset x = writeAt buffer offset [x] := by
  unfold writeAt
  rw [List.set_eq_take_append_cons_drop, if_pos hlt, List.append_assoc]
  rfl

theorem writeAt_writeAt (x : UInt8) (hle : offset < buffer.length) :
    writeAt (writeAt buffer offset [x]) (offset + 1) bytes = writeAt buffer offset (x :: bytes) := by
  have htake : (writeAt buffer offset [x]).take (offset + 1) = buffer.take offset ++ [x] :=
    take_writeAt (le_of_lt hle) rfl
  have hdrop : (writeAt buffer offset [x]).drop (offset + 1 + bytes.length) =
      buffer.drop (offset + (x :: bytes).length) := by
    unfold writeAt
    rw [List.drop_append, List.drop_of_length_le, List.nil_append, List.drop_drop]
    · congr 1
      simp only [List.length_append, List.length_take, List.length_cons, List.length_nil]
      omega
    · simp only [List.length_append, List.length_take, List.length_cons, List.length_nil]
      omega
  show (writeAt buffer offset [x]).take (offset + 1) ++ bytes ++
    (writeAt buffer offset [x]).drop (offset + 1 + bytes.length) = _
  rw [htake, hdrop, List.append_assoc (buffer.take offset)]
  rfl

/-! ## The loops -/

variable {srcOffset : ℕ}

/-- The loop copies up to the end of the buffer or of the source. -/
theorem fillBuffer_spec {fuel bufOffset : ℕ} (hfuel : 64 - bufOffset ≤ fuel) (hbuf : bufOffset ≤ 64)
    (hlength : 64 ≤ buffer.length) (hsrc : srcOffset ≤ src.length) :
    fillBuffer src fuel buffer bufOffset srcOffset =
      (writeAt buffer bufOffset ((src.drop srcOffset).take (64 - bufOffset)),
        min 64 (bufOffset + (src.length - srcOffset)),
        min src.length (srcOffset + (64 - bufOffset))) := by
  induction fuel generalizing buffer bufOffset srcOffset with
  | zero =>
    obtain rfl : bufOffset = 64 := by omega
    rw [fillBuffer, Nat.sub_self, List.take_zero, writeAt_nil]
    simp only [Prod.mk.injEq, true_and]
    omega
  | succ fuel ih =>
    rw [fillBuffer]
    split
    · rename_i hmore
      have hfirst : (src.drop srcOffset).take (64 - bufOffset) =
          src.getD srcOffset 0 :: (src.drop (srcOffset + 1)).take (64 - (bufOffset + 1)) := by
        rw [List.drop_eq_getElem_cons hmore.2, List.getD_eq_getElem _ _ hmore.2]
        obtain ⟨k, hk⟩ : ∃ k, 64 - bufOffset = k + 1 := ⟨63 - bufOffset, by omega⟩
        rw [hk, List.take_succ_cons, show 64 - (bufOffset + 1) = k by omega]
      rw [set_eq_writeAt (by omega), ih (by omega) (by omega) ?_ hmore.2, hfirst,
        writeAt_writeAt _ (by omega)]
      · simp only [Prod.mk.injEq, true_and]
        omega
      · rw [length_writeAt]
        · exact hlength
        · simp only [List.length_cons, List.length_nil]
          omega
    · rename_i hmore
      -- there is no room, or no byte is left
      have hnone : (src.drop srcOffset).take (64 - bufOffset) = [] := by
        rw [List.take_eq_nil_iff, List.drop_eq_nil_iff]
        omega
      rw [hnone, writeAt_nil]
      simp only [Prod.mk.injEq, true_and]
      omega

/-- The loop hashes every whole chunk of the source. -/
theorem wholeChunks_spec {fuel : ℕ} (hash256 : H) (hfuel : (src.length - srcOffset) / 64 ≤ fuel)
    (hsrc : srcOffset ≤ src.length) (hlength : 64 ≤ src.length) :
    wholeChunks round src fuel srcOffset hash256 =
      (srcOffset + 64 * ((src.length - srcOffset) / 64),
        iterate 64 round ((src.length - srcOffset) / 64) (src.drop srcOffset) hash256) := by
  induction fuel generalizing srcOffset hash256 with
  | zero =>
    rw [Nat.le_zero.mp hfuel]
    rfl
  | succ fuel ih =>
    rw [wholeChunks]
    split
    · rename_i hmore
      have hcount : (src.length - srcOffset) / 64 = (src.length - (srcOffset + 64)) / 64 + 1 := by
        omega
      rw [ih _ (by omega) (by omega), hcount, iterate, List.drop_drop]
      simp only [Prod.mk.injEq, and_true]
      omega
    · have hcount : (src.length - srcOffset) / 64 = 0 := by omega
      rw [hcount]
      rfl

theorem addWholeChunks_spec (sha : ShaContext H) {bufOffset : ℕ} (hsrc : srcOffset ≤ src.length) :
    addWholeChunks round sha src bufOffset srcOffset =
      { sha with
        hash256 := iterate 64 round ((src.length - srcOffset) / 64) (src.drop srcOffset) sha.hash256
        buffer := writeAt sha.buffer bufOffset
          (src.drop (srcOffset + 64 * ((src.length - srcOffset) / 64))) } := by
  have hchunks : (if src.length ≥ 64 then wholeChunks round src src.length srcOffset sha.hash256
      else (srcOffset, sha.hash256)) =
        (srcOffset + 64 * ((src.length - srcOffset) / 64),
          iterate 64 round ((src.length - srcOffset) / 64) (src.drop srcOffset) sha.hash256) := by
    split
    · rename_i hlength
      exact wholeChunks_spec _ (by omega) hsrc hlength
    · have hcount : (src.length - srcOffset) / 64 = 0 := by omega
      rw [hcount]
      rfl
  unfold addWholeChunks
  simp only [hchunks]
  split
  · rfl
  · rename_i hnone
    have hnone : src.drop (srcOffset + 64 * ((src.length - srcOffset) / 64)) = [] :=
      List.drop_of_length_le (by omega)
    rw [hnone, writeAt_nil]

/-! ## The bytes of a context -/

/-- The context is that of a message whose bytes are `c`. -/
structure Holds (round : List UInt8 → H → H) (h₀ : H) (sha : ShaContext H) (c : List UInt8) :
    Prop where
  isSealed : sha.isSealed = false
  len : sha.len = c.length % 2 ^ 64
  length : sha.buffer.length = 128
  hash256 : sha.hash256 = iterate 64 round (c.length / 64) c h₀
  buffer : sha.buffer.take (c.length % 64) = c.drop (64 * (c.length / 64))

/-- What the context takes for the bytes: if a piece fills the buffer, its remainder is replaced by
the bytes at the start of the chunk that the buffer held. -/
def accepted (c src : List UInt8) : List UInt8 :=
  if c.length % 64 ≠ 0 ∧ 64 ≤ c.length % 64 + src.length then
    (c ++ src).take (64 * ((c ++ src).length / 64)) ++
      ((c ++ src).drop (64 * (c.length / 64))).take ((c ++ src).length % 64)
  else c ++ src

theorem holds_startContext (type : ShaType) (h₀ : H) :
    Holds round h₀ (startContext type h₀) [] where
  isSealed := rfl
  len := rfl
  length := List.length_replicate
  hash256 := rfl
  buffer := rfl

theorem length_accepted (c src : List UInt8) : (accepted c src).length = c.length + src.length := by
  unfold accepted
  split
  · simp only [List.length_append, List.length_take, List.length_drop]
    omega
  · exact List.length_append

theorem iterate_of_append (hle : 64 * count ≤ c.length) (h₀ : H) :
    iterate 64 round count (c ++ src) h₀ = iterate 64 round count c h₀ := by
  apply iterate_congr
  rw [List.take_append_of_le_length hle]

variable {sha : ShaContext H} {len : ℕ}

theorem holds_aligned (hsha : Holds round h₀ sha c) (hlen : len = (c.length + src.length) % 2 ^ 64)
    (haligned : c.length % 64 = 0) :
    Holds round h₀ (addWholeChunks round { sha with len } src 0 0) (c ++ src) := by
  have hlength := hsha.length
  have hdiv : 64 * (c.length / 64) = c.length := by omega
  have hcount : (c ++ src).length / 64 = c.length / 64 + src.length / 64 := by
    rw [List.length_append]
    omega
  have hrest : (c ++ src).drop (64 * ((c ++ src).length / 64)) =
      src.drop (64 * (src.length / 64)) := by
    rw [hcount, Nat.mul_add, hdiv, ← List.drop_drop, List.drop_left]
  have hmod : (c ++ src).length % 64 = (src.drop (64 * (src.length / 64))).length := by
    rw [List.length_append, List.length_drop]
    omega
  rw [addWholeChunks_spec _ (Nat.zero_le _)]
  simp only [Nat.sub_zero, Nat.zero_add, List.drop_zero]
  refine ⟨hsha.isSealed, ?_, ?_, ?_, ?_⟩
  · rw [List.length_append]
    exact hlen
  · rw [length_writeAt]
    · exact hlength
    · rw [List.length_drop]
      omega
  · show iterate 64 round (src.length / 64) src sha.hash256 = _
    rw [hcount, Blocks.iterate_add, hdiv, List.drop_left, iterate_of_append (le_of_eq hdiv),
      hsha.hash256]
  · show (writeAt sha.buffer 0 _).take ((c ++ src).length % 64) = _
    rw [take_writeAt (Nat.zero_le _) (by omega), List.take_zero, List.nil_append, hrest]

theorem holds_pending (hsha : Holds round h₀ sha c) (hlen : len = (c.length + src.length) % 2 ^ 64)
    (hroom : c.length % 64 + src.length < 64) :
    Holds round h₀ { sha with len, buffer := writeAt sha.buffer (c.length % 64) src } (c ++ src) := by
  have hlength := hsha.length
  have hcount : (c ++ src).length / 64 = c.length / 64 := by
    rw [List.length_append]
    omega
  refine ⟨hsha.isSealed, ?_, ?_, ?_, ?_⟩
  · rw [List.length_append]
    exact hlen
  · show (writeAt sha.buffer _ _).length = 128
    rw [length_writeAt (by omega)]
    exact hlength
  · show sha.hash256 = _
    rw [hcount, iterate_of_append (by omega), hsha.hash256]
  · show (writeAt sha.buffer (c.length % 64) src).take ((c ++ src).length % 64) = _
    rw [take_writeAt (by omega) (by rw [List.length_append]; omega), hsha.buffer, hcount,
      List.drop_append_of_le_length (by omega)]

theorem holds_filled (hsha : Holds round h₀ sha c) (hlen : len = (c.length + src.length) % 2 ^ 64)
    (hfull : 64 ≤ c.length % 64 + src.length) :
    Holds round h₀
      (addWholeChunks round
        { sha with
          len
          buffer := writeAt sha.buffer (c.length % 64) (src.take (64 - c.length % 64))
          hash256 := round ((writeAt sha.buffer (c.length % 64)
            (src.take (64 - c.length % 64))).take 64) sha.hash256 }
        src 64 (64 - c.length % 64))
      ((c ++ src).take (64 * ((c ++ src).length / 64)) ++
        ((c ++ src).drop (64 * (c.length / 64))).take ((c ++ src).length % 64)) := by
  have hlength := hsha.length
  have hbytes : (src.take (64 - c.length % 64)).length = 64 - c.length % 64 := by
    rw [List.length_take]
    omega
  have hpending : (c.drop (64 * (c.length / 64))).length = c.length % 64 := by
    rw [List.length_drop]
    omega
  have hshort : (c.drop (64 * (c.length / 64))).take 64 = c.drop (64 * (c.length / 64)) :=
    List.take_of_length_le (by omega)
  -- the chunk in the buffer
  have hchunk : (writeAt sha.buffer (c.length % 64) (src.take (64 - c.length % 64))).take 64 =
      ((c ++ src).drop (64 * (c.length / 64))).take 64 := by
    rw [take_writeAt (by omega) (by omega), hsha.buffer,
      List.drop_append_of_le_length (by omega), List.take_append, hshort, hpending]
  have hbuffer : (writeAt sha.buffer (c.length % 64) (src.take (64 - c.length % 64))).length = 128 := by
    rw [length_writeAt (by omega)]
    exact hlength
  have hcount : (c ++ src).length / 64 =
      c.length / 64 + 1 + (src.length - (64 - c.length % 64)) / 64 := by
    rw [List.length_append]
    omega
  have hrest : (c ++ src).drop (64 * (c.length / 64 + 1)) = src.drop (64 - c.length % 64) := by
    rw [show 64 * (c.length / 64 + 1) = c.length + (64 - c.length % 64) by omega, ← List.drop_drop,
      List.drop_left]
  have htotal := @List.length_append _ c src
  have htake : ((c ++ src).take (64 * ((c ++ src).length / 64))).length =
      64 * ((c ++ src).length / 64) := by
    rw [List.length_take]
    omega
  have hsame : ((c ++ src).take (64 * ((c ++ src).length / 64)) ++
      ((c ++ src).drop (64 * (c.length / 64))).take ((c ++ src).length % 64)).length =
        (c ++ src).length := by
    rw [List.length_append, htake, List.length_take, List.length_drop]
    omega
  rw [addWholeChunks_spec _ (by omega)]
  simp only
  rw [hchunk]
  refine ⟨hsha.isSealed, ?_, ?_, ?_, ?_⟩
  · rw [hsame, htotal]
    exact hlen
  · show (writeAt _ 64 _).length = 128
    rw [length_writeAt]
    · exact hbuffer
    · rw [hbuffer, List.length_drop]
      omega
  · show iterate 64 round ((src.length - (64 - c.length % 64)) / 64)
      (src.drop (64 - c.length % 64)) (round _ sha.hash256) = _
    rw [hsame, iterate_of_append (le_of_eq htake.symm)]
    have hwhole : iterate 64 round ((c ++ src).length / 64)
        ((c ++ src).take (64 * ((c ++ src).length / 64))) h₀ =
          iterate 64 round ((c ++ src).length / 64) (c ++ src) h₀ := by
      apply iterate_congr
      rw [List.take_take, Nat.min_self]
    rw [hwhole, hcount, Blocks.iterate_add, Blocks.iterate_add, iterate_one, hrest,
      iterate_of_append (by omega), hsha.hash256]
  · show (writeAt _ 64 _).take _ = _
    rw [hsame, take_writeAt_of_le (by omega) (by omega), List.drop_left' htake]
    have hmod : (c ++ src).length % 64 ≤ 64 := by omega
    have hpre := congrArg (List.take ((c ++ src).length % 64)) hchunk
    rwa [List.take_take, List.take_take, Nat.min_eq_left hmod] at hpre

theorem holds_addBytes (hsha : Holds round h₀ sha c) (src : List UInt8) :
    Holds round h₀ (sha224256AddBytes round sha src) (accepted c src) := by
  have hoffset : sha.len % 64 = c.length % 64 := by
    rw [hsha.len, Nat.mod_mod_of_dvd]
    decide
  have hlen : (sha.len + src.length) % 2 ^ 64 = (c.length + src.length) % 2 ^ 64 := by
    rw [hsha.len, Nat.mod_add_mod]
  have hlength := hsha.length
  unfold sha224256AddBytes accepted
  simp only [hoffset, hlen]
  split
  · rename_i hpending
    rw [fillBuffer_spec (by omega) (by omega) (by omega) (Nat.zero_le _)]
    simp only [Nat.sub_zero, Nat.zero_add, List.drop_zero]
    split
    · rename_i hfilled
      have hfull : 64 ≤ c.length % 64 + src.length := by omega
      have hsrc : min src.length (64 - c.length % 64) = 64 - c.length % 64 := by omega
      rw [hfilled, hsrc, if_pos ⟨hpending, hfull⟩]
      exact holds_filled hsha rfl hfull
    · rename_i hroom
      have hall : src.take (64 - c.length % 64) = src := List.take_of_length_le (by omega)
      rw [hall, if_neg (by omega)]
      exact holds_pending hsha rfl (by omega)
  · rename_i haligned
    have haligned : c.length % 64 = 0 := not_not.mp haligned
    rw [if_neg (fun h => h.1 haligned), haligned]
    exact holds_aligned hsha rfl haligned

end ChibiScheme.Crypto
