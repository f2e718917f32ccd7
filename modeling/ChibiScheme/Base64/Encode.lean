import Mathlib.Data.List.Basic
import Mathlib.Data.Nat.Bitwise

/-!
# Base64

The encoder and the decoder of `(chibi base64)`: on a whole bytevector, and on a binary port that is
read in chunks.

A byte operation returns `none` if it raises an exception.
-/

namespace ChibiScheme.Base64

/-! ## Bytes and bits -/

/-- `bytevector-u8-ref` -/
def u8Ref (bv : List UInt8) (i : ℕ) : Option ℕ :=
  (bv[i]?).map UInt8.toNat

/-- `bytevector-u8-set!` -/
def u8Set (bv : List UInt8) (i u8 : ℕ) : Option (List UInt8) :=
  if i < bv.length ∧ u8 < 256 then some (bv.set i (UInt8.ofNat u8)) else none

/-- `bit-field` -/
def bitField (n start stop : ℕ) : ℕ :=
  (n >>> start) &&& (2 ^ (stop - start) - 1)

/-! ## Constants and tables -/

/-- `*outside-char*` -/
def outsideChar : ℕ := 99

/-- `*pad-char*` -/
def padChar : ℕ := 101

/-- `*base64-decode-table*` -/
def base64DecodeTable : List ℕ :=
  let res := List.replicate 0x100 outsideChar
  -- map letters
  let res := (List.range 26).foldl (fun res i => (res.set (i + 65) i).set (i + 97) (i + 26)) res
  -- map numbers
  let res := (List.range 10).foldl (fun res i => res.set (i + 48) (i + 52)) res
  -- the characters `+`, `-`, `/`, `_`, `~` and `=`
  let res := (res.set 43 62).set 45 62
  let res := ((res.set 47 63).set 95 63).set 126 63
  res.set 61 padChar

/-- `base64-decode-u8`; the table has an entry for each byte. -/
def base64DecodeU8 (u8 : UInt8) : ℕ :=
  base64DecodeTable.getD u8.toNat outsideChar

/-- `*base64-encode-table*` -/
def base64EncodeTable : List ℕ :=
  let res := List.replicate 64 0
  let res := (List.range 26).foldl (fun res i => (res.set i (i + 65)).set (i + 26) (i + 97)) res
  let res := (List.range 10).foldl (fun res i => res.set (i + 52) (i + 48)) res
  (res.set 62 43).set 63 47

/-- The digit of a number; `none` behind the table. -/
def enc (i : ℕ) : Option ℕ :=
  base64EncodeTable[i]?

/-- `decode-src-length`: a multiple of the usual line lengths. -/
def decodeSrcLength : ℕ :=
  Nat.lcm 76 78

/-- `decode-dst-length` -/
def decodeDstLength : ℕ :=
  3 * ((3 + decodeSrcLength) >>> 2)

/-- `encode-src-length` -/
def encodeSrcLength : ℕ :=
  3 * 1024

/-! ## Decoding -/

/-- What `base64-decode-bytevector!` passes to its continuation, and the destination. -/
structure DecodeState where
  srcOffset : ℕ
  dstLen : ℕ
  (b1 b2 b3 : ℕ)
  dst : List UInt8

/-- `base64-decode-bytevector!` -/
def base64DecodeLoop (src : List UInt8) (stop : ℕ) (i j b1 b2 b3 : ℕ) (dst : List UInt8) :
    Option DecodeState :=
  if i ≥ stop then some ⟨i, j, b1, b2, b3, dst⟩
  else
    match src[i]? with
    | none => none
    | some u8 =>
      let c := base64DecodeU8 u8
      if c = padChar then some ⟨i, j, b1, b2, b3, dst⟩
      else if c = outsideChar then base64DecodeLoop src stop (i + 1) j b1 b2 b3 dst
      else if b1 = outsideChar then base64DecodeLoop src stop (i + 1) j c b2 b3 dst
      else if b2 = outsideChar then base64DecodeLoop src stop (i + 1) j b1 c b3 dst
      else if b3 = outsideChar then base64DecodeLoop src stop (i + 1) j b1 b2 c dst
      else do
        let dst ← u8Set dst j ((b1 <<< 2) ||| bitField b2 4 6)
        let dst ← u8Set dst (j + 1) ((bitField b2 0 4 <<< 4) ||| bitField b3 2 6)
        let dst ← u8Set dst (j + 2) ((bitField b3 0 2 <<< 6) ||| c)
        base64DecodeLoop src stop (i + 1) (j + 3) outsideChar outsideChar outsideChar dst
termination_by stop - i

/-- `base64-decode-finish`: the destination and how much of it is used. -/
def base64DecodeFinish (s : DecodeState) : Option (List UInt8 × ℕ) :=
  if s.b1 = outsideChar then some (s.dst, s.dstLen)
  else if s.b2 = outsideChar then do
    let dst ← u8Set s.dst s.dstLen (s.b1 <<< 2)
    some (dst, s.dstLen + 1)
  else do
    let dst ← u8Set s.dst s.dstLen ((s.b1 <<< 2) ||| bitField s.b2 4 6)
    if s.b3 = outsideChar then some (dst, s.dstLen + 1)
    else do
      let dst ← u8Set dst (s.dstLen + 1) ((bitField s.b2 0 4 <<< 4) ||| bitField s.b3 2 6)
      some (dst, s.dstLen + 2)

/-- `base64-decode-bytevector`: the loop on a new bytevector, cut to the bytes written. -/
def base64DecodeBytevector (src : List UInt8) : Option (List UInt8) := do
  let dstLen := 3 * ((3 + src.length) >>> 2)
  let s ← base64DecodeLoop src src.length 0 0 outsideChar outsideChar outsideChar
    (List.replicate dstLen 0)
  let (dst, resLen) ← base64DecodeFinish s
  some (if resLen = dstLen then dst else dst.take resLen)

/-! ## Encoding -/

/-- `base64-encode-bytevector!` -/
def base64EncodeLoop (bv : List UInt8) (stop : ℕ) (i j : ℕ) (res : List UInt8) :
    Option (List UInt8) :=
  if i + 2 ≥ stop then
    match stop - i with
    | 1 => do
        let b1 ← u8Ref bv i
        let res ← u8Set res j (← enc (b1 >>> 2))
        let res ← u8Set res (j + 1) (← enc ((0b11 &&& b1) <<< 4))
        let res ← u8Set res (j + 2) 61
        u8Set res (j + 3) 61
    | 2 => do
        let b1 ← u8Ref bv i
        let b2 ← u8Ref bv (i + 1)
        let res ← u8Set res j (← enc (b1 >>> 2))
        let res ← u8Set res (j + 1) (← enc (((0b11 &&& b1) <<< 4) ||| bitField b2 4 8))
        let res ← u8Set res (j + 2) (← enc (bitField b2 0 4 <<< 2))
        u8Set res (j + 3) 61
    | _ => some res
  else do
    let b1 ← u8Ref bv i
    let b2 ← u8Ref bv (i + 1)
    let b3 ← u8Ref bv (i + 2)
    let res ← u8Set res j (← enc (b1 >>> 2))
    let res ← u8Set res (j + 1) (← enc (((0b11 &&& b1) <<< 4) ||| bitField b2 4 8))
    let res ← u8Set res (j + 2) (← enc ((bitField b2 0 4 <<< 2) ||| bitField b3 6 8))
    let res ← u8Set res (j + 3) (← enc (0b111111 &&& b3))
    base64EncodeLoop bv stop (i + 3) (j + 4) res
termination_by stop - i

/-- `base64-encode-bytevector`: the loop on a bytevector of four digits for each three bytes. -/
def base64EncodeBytevector (bv : List UInt8) : Option (List UInt8) :=
  let quot := bv.length / 3
  let rem := bv.length - quot * 3
  let resLen := (quot + if rem = 0 then 0 else 1) <<< 2
  base64EncodeLoop bv bv.length 0 0 (List.replicate resLen 0)

/-! ## Ports -/

/-- What `read-bytevector!` returns: a count, or an end-of-file object. -/
inductive ReadCount where
  | count (n : ℕ)
  | eof
deriving DecidableEq

/-- The loop of `read-bytevector!`; the result is the count, the bytevector and what is left of the
input. -/
def readLoop (start n : ℕ) :
    List UInt8 → ℕ → List UInt8 → Option (ReadCount × List UInt8 × List UInt8)
  | [], i, vec =>
    if i ≥ n then some (.count i, vec, [])
    else some (if i = 0 then .eof else .count i, vec, [])
  | x :: rest, i, vec =>
    if i ≥ n then some (.count i, vec, x :: rest)
    else do
      let vec ← u8Set vec (i + start) x.toNat
      readLoop start n rest (i + 1) vec

/-- `read-bytevector!` from the rest of the input. -/
def readBytevector (vec input : List UInt8) (start stop : ℕ) :
    Option (ReadCount × List UInt8 × List UInt8) :=
  if start ≥ stop then some (.count 0, vec, input)
  else readLoop start (stop - start) input 0 vec

/-- `write-bytevector` of the first bytes of a bytevector. -/
def writeBytevector (written vec : List UInt8) (stop : ℕ) : Option (List UInt8) :=
  if stop ≤ vec.length then some (written ++ vec.take stop) else none

/-- How a call ends. -/
inductive Outcome where
  | returned
  | raised
  | unfinished
deriving DecidableEq

/-- The rest of a round of `base64-encode`, after the input was read: the destination and what has
been written. -/
def encodeChunk (src dst written : List UInt8) (n : ℕ) : Option (List UInt8 × List UInt8) := do
  let dst ← base64EncodeLoop src n 0 0 dst
  let written ← writeBytevector written dst (4 * ((n + 2) / 3))
  some (dst, written)

/-- The loop of `base64-encode` on a binary port: what is written, and how the call ends. -/
def base64EncodeRounds : ℕ → List UInt8 → List UInt8 → List UInt8 → List UInt8 →
    List UInt8 × Outcome
  | 0, _, _, _, written => (written, .unfinished)
  | fuel + 1, src, dst, input, written =>
    match readBytevector src input 0 2048 with
    | none => (written, .raised)
    -- the end-of-file object is not a number
    | some (.eof, _, _) => (written, .raised)
    | some (.count n, src, input) =>
      match encodeChunk src dst written n with
      | none => (written, .raised)
      | some (dst, written) =>
        if n = 2048 then base64EncodeRounds fuel src dst input written
        else (written, .returned)

/-- `base64-encode` on a binary port.  Each round but the last reads some bytes. -/
def base64Encode (input : List UInt8) : List UInt8 × Outcome :=
  base64EncodeRounds (input.length + 1) (List.replicate encodeSrcLength 0)
    (List.replicate ((encodeSrcLength / 3) <<< 2) 0) input []

/-- The characters that are left in the buffer are put at the start of the source. -/
def carryOver (src : List UInt8) (s : DecodeState) : Option (List UInt8 × ℕ) := do
  let src ← u8Set src 0 (← enc s.b1)
  if s.b2 = outsideChar then some (src, 1)
  else do
    let src ← u8Set src 1 (← enc s.b2)
    if s.b3 = outsideChar then some (src, 2)
    else do
      let src ← u8Set src 2 (← enc s.b3)
      some (src, 3)

/-- What a round of `base64-decode` leads to. -/
inductive RoundResult where
  | done (written : List UInt8)
  | more (src dst written : List UInt8) (offset : ℕ)

/-- The last bytes are decoded and written. -/
def finishRound (written : List UInt8) (s : DecodeState) : Option RoundResult := do
  let (dst, dstLen) ← base64DecodeFinish s
  let written ← writeBytevector written dst dstLen
  some (.done written)

/-- The rest of a round of `base64-decode`, after the input was read. -/
def decodeChunk (src dst written : List UInt8) (srcLen : ℕ) : Option RoundResult :=
  if srcLen = decodeSrcLength then do
    -- a full chunk
    let s ← base64DecodeLoop src decodeSrcLength 0 0 outsideChar outsideChar outsideChar dst
    if s.srcOffset < srcLen ∧ src[s.srcOffset]? = some 0x3D then finishRound written s
    else if s.b1 = outsideChar then do
      let written ← writeBytevector written s.dst s.dstLen
      some (.more src s.dst written 0)
    else do
      let written ← writeBytevector written s.dst s.dstLen
      let (src, offset) ← carryOver src s
      some (.more src s.dst written offset)
  else do
    -- the end of the source
    let s ← base64DecodeLoop src srcLen 0 0 outsideChar outsideChar outsideChar dst
    finishRound written s

/-- The loop of `base64-decode` on a binary port: what is written, and how the call ends. -/
def base64DecodeRounds : ℕ → ℕ → List UInt8 → List UInt8 → List UInt8 → List UInt8 →
    List UInt8 × Outcome
  | 0, _, _, _, _, written => (written, .unfinished)
  | fuel + 1, offset, src, dst, input, written =>
    match readBytevector src input offset decodeSrcLength with
    | none => (written, .raised)
    -- the end-of-file object is not a number
    | some (.eof, _, _) => (written, .raised)
    | some (.count n, src, input) =>
      match decodeChunk src dst written (offset + n) with
      | none => (written, .raised)
      | some (.done written) => (written, .returned)
      | some (.more src dst written offset) =>
        base64DecodeRounds fuel offset src dst input written

/-- `base64-decode` on a binary port.  Each round but the last reads some bytes. -/
def base64Decode (input : List UInt8) : List UInt8 × Outcome :=
  base64DecodeRounds (input.length + 1) 0 (List.replicate decodeSrcLength 0)
    (List.replicate decodeDstLength 0) input []

/-! ## Encoding

The encoder writes a group of four characters for three bytes.  A port is encoded in chunks of 2048
bytes, which is no multiple of three, so a full chunk is padded as if it were the last one. -/

open List Option

variable {bv out dst : List UInt8}

/-! ## Writing at the end of what is there -/

/-- The padding. -/
def pad : UInt8 := 0x3D

theorem u8Ref_eq {i : ℕ} {b : UInt8} (hget : bv[i]? = some b) : u8Ref bv i = some b.toNat := by
  unfold u8Ref
  rw [hget]
  rfl

theorem u8Set_pad (j : ℕ) : u8Set dst j 61 = u8Set dst j pad.toNat := rfl

theorem u8Set_eq {j u8 : ℕ} (hlt : j < dst.length) (hbyte : u8 < 256) :
    u8Set dst j u8 = some (dst.set j (UInt8.ofNat u8)) := by
  unfold u8Set
  rw [if_pos ⟨hlt, hbyte⟩]

theorem u8Set_toNat {j : ℕ} (x : UInt8) (hlt : j < dst.length) :
    u8Set dst j x.toNat = some (dst.set j x) := by
  rw [u8Set_eq hlt x.toNat_lt, UInt8.ofNat_toNat]

theorem prefix_set {j : ℕ} (x : UInt8) (hpre : out <+: dst) (hj : j = out.length)
    (hlt : j < dst.length) : out ++ [x] <+: dst.set j x := by
  obtain ⟨rest, rfl⟩ := hpre
  subst hj
  cases rest with
  | nil => simp only [append_nil, lt_irrefl] at hlt
  | cons y rest =>
    rw [set_append_right _ _ (le_refl _), Nat.sub_self, set_cons_zero]
    exact ⟨rest, append_assoc out [x] rest⟩

theorem writeBytevector_eq {written : List UInt8} {stop : ℕ} (hpre : out <+: dst)
    (hstop : stop = out.length) : writeBytevector written dst stop = some (written ++ out) := by
  unfold writeBytevector
  rw [if_pos (hstop ▸ hpre.length_le), hstop, ← prefix_iff_eq_take.mp hpre]

theorem peel {i stop : ℕ} {b : UInt8} {rest : List UInt8}
    (hpart : (bv.take stop).drop i = b :: rest) :
    bv[i]? = some b ∧ (bv.take stop).drop (i + 1) = rest ∧ i < stop := by
  have hlt : i < (bv.take stop).length := by
    have hlength := congrArg List.length hpart
    rw [length_drop, length_cons] at hlength
    omega
  rw [drop_eq_getElem_cons hlt, List.cons.injEq] at hpart
  have hstop : i < stop := by
    rw [length_take] at hlt
    omega
  refine ⟨?_, hpart.2, hstop⟩
  rw [← hpart.1, getElem_take, getElem?_eq_getElem]

/-! ## Characters -/

/-- The character of a sextet. -/
def encChar (i : ℕ) : UInt8 :=
  UInt8.ofNat ((enc i).getD 0)

theorem enc_eq {i : ℕ} (hlt : i < 64) : enc i = some (encChar i).toNat := by
  revert i
  decide

theorem encChar_ne_pad {i : ℕ} (hlt : i < 64) : encChar i ≠ 0x3D := by
  revert i
  decide

section Sextets

variable (b b₁ b₂ b₃ : UInt8)

/-- The first six bits. -/
def sextet₁ : ℕ := b₁.toNat >>> 2

/-- The last two bits of the first byte and the first four of the second. -/
def sextet₂ : ℕ := ((0b11 &&& b₁.toNat) <<< 4) ||| bitField b₂.toNat 4 8

/-- The last four bits of the second byte and the first two of the third. -/
def sextet₃ : ℕ := (bitField b₂.toNat 0 4 <<< 2) ||| bitField b₃.toNat 6 8

/-- The last six bits. -/
def sextet₄ : ℕ := 0b111111 &&& b₃.toNat

theorem bitField_lt {n start stop width : ℕ} (hwidth : width = stop - start) :
    bitField n start stop < 2 ^ width := by
  unfold bitField
  rw [hwidth]
  exact Nat.and_lt_two_pow _ (Nat.sub_lt (Nat.two_pow_pos _) Nat.one_pos)

theorem sextet₁_lt : sextet₁ b < 64 := by
  have hbyte := b.toNat_lt
  unfold sextet₁
  rw [Nat.shiftRight_eq_div_pow]
  omega

theorem low_lt : (0b11 &&& b.toNat) <<< 4 < 64 := by
  have hlow : 0b11 &&& b.toNat < 4 := Nat.lt_of_le_of_lt Nat.and_le_left (by omega)
  rw [Nat.shiftLeft_eq]
  omega

theorem middle_lt : bitField b.toNat 0 4 <<< 2 < 64 := by
  have hfield : bitField b.toNat 0 4 < 2 ^ 4 := bitField_lt rfl
  rw [Nat.shiftLeft_eq]
  omega

theorem sextet₂_lt : sextet₂ b₁ b₂ < 64 := by
  have hfield : bitField b₂.toNat 4 8 < 2 ^ 4 := bitField_lt rfl
  exact Nat.or_lt_two_pow (n := 6) (low_lt b₁) (by omega)

theorem sextet₃_lt : sextet₃ b₂ b₃ < 64 := by
  have hfield : bitField b₃.toNat 6 8 < 2 ^ 2 := bitField_lt rfl
  exact Nat.or_lt_two_pow (n := 6) (middle_lt b₂) (by omega)

theorem sextet₄_lt : sextet₄ b < 64 :=
  Nat.lt_of_le_of_lt Nat.and_le_left (by omega)

end Sextets

/-! ## The text of a bytevector -/

/-- The encoding of a byte sequence, in groups of three bytes. -/
def encode : List UInt8 → List UInt8
  | [] => []
  | [b₁] => [encChar (sextet₁ b₁), encChar ((0b11 &&& b₁.toNat) <<< 4), pad, pad]
  | [b₁, b₂] =>
    [encChar (sextet₁ b₁), encChar (sextet₂ b₁ b₂), encChar (bitField b₂.toNat 0 4 <<< 2), pad]
  | b₁ :: b₂ :: b₃ :: rest =>
    [encChar (sextet₁ b₁), encChar (sextet₂ b₁ b₂), encChar (sextet₃ b₂ b₃),
      encChar (sextet₄ b₃)] ++ encode rest

theorem length_encode (bytes : List UInt8) :
    (encode bytes).length = 4 * ((bytes.length + 2) / 3) := by
  induction bytes using encode.induct with
  | case1 => rw [encode, length_nil]
  | case2 b₁ => simp only [encode, length_cons, length_nil]
  | case3 b₁ b₂ => simp only [encode, length_cons, length_nil]
  | case4 b₁ b₂ b₃ rest ih =>
    rw [encode, length_append, ih]
    simp only [length_cons, length_nil]
    omega

/-! ## The loop -/

/-- The buffer after four characters were written. -/
def setFour (dst : List UInt8) (j : ℕ) (x₁ x₂ x₃ x₄ : UInt8) : List UInt8 :=
  (((dst.set j x₁).set (j + 1) x₂).set (j + 2) x₃).set (j + 3) x₄

theorem length_setFour (j : ℕ) (x₁ x₂ x₃ x₄ : UInt8) :
    (setFour dst j x₁ x₂ x₃ x₄).length = dst.length := by
  simp only [setFour, length_set]

theorem prefix_setFour {j : ℕ} (x₁ x₂ x₃ x₄ : UInt8) (hpre : out <+: dst)
    (hj : j = out.length) (hlt : j + 3 < dst.length) :
    out ++ [x₁, x₂, x₃, x₄] <+: setFour dst j x₁ x₂ x₃ x₄ := by
  have h₁ := prefix_set x₁ hpre hj (by omega)
  have h₂ := prefix_set (j := j + 1) x₂ h₁ (by simp [hj]) (by simp; omega)
  have h₃ := prefix_set (j := j + 2) x₃ h₂ (by simp [hj]) (by simp; omega)
  have h₄ := prefix_set (j := j + 3) x₄ h₃ (by simp [hj]) (by simp; omega)
  simpa [setFour] using h₄

section Steps

variable {stop i j : ℕ} {b₁ b₂ b₃ : UInt8}

theorem base64EncodeLoop_nil : base64EncodeLoop bv stop stop j dst = some dst := by
  rw [base64EncodeLoop, if_pos (by omega), Nat.sub_self]
  rfl

theorem base64EncodeLoop_one (hstop : stop = i + 1) (hget₁ : bv[i]? = some b₁)
    (hlt : j + 3 < dst.length) :
    base64EncodeLoop bv stop i j dst =
      some (setFour dst j (encChar (sextet₁ b₁)) (encChar ((0b11 &&& b₁.toNat) <<< 4)) pad pad) := by
  have hrest : stop - i = 1 := by omega
  rw [base64EncodeLoop, if_pos (by omega), hrest]
  simp only [u8Ref_eq hget₁, bind_eq_bind, bind_some]
  rw [show b₁.toNat >>> 2 = sextet₁ b₁ from rfl, enc_eq (sextet₁_lt b₁), enc_eq (low_lt b₁)]
  simp (disch := (try simp only [length_set]); omega) only [u8Set_pad, u8Set_toNat, bind_some]
  rfl

theorem base64EncodeLoop_two (hstop : stop = i + 2) (hget₁ : bv[i]? = some b₁)
    (hget₂ : bv[i + 1]? = some b₂) (hlt : j + 3 < dst.length) :
    base64EncodeLoop bv stop i j dst =
      some (setFour dst j (encChar (sextet₁ b₁)) (encChar (sextet₂ b₁ b₂))
        (encChar (bitField b₂.toNat 0 4 <<< 2)) pad) := by
  have hrest : stop - i = 2 := by omega
  rw [base64EncodeLoop, if_pos (by omega), hrest]
  simp only [u8Ref_eq hget₁, u8Ref_eq hget₂, bind_eq_bind, bind_some]
  rw [show b₁.toNat >>> 2 = sextet₁ b₁ from rfl, enc_eq (sextet₁_lt b₁),
    show ((0b11 &&& b₁.toNat) <<< 4) ||| bitField b₂.toNat 4 8 = sextet₂ b₁ b₂ from rfl,
    enc_eq (sextet₂_lt b₁ b₂), enc_eq (middle_lt b₂)]
  simp (disch := (try simp only [length_set]); omega) only [u8Set_pad, u8Set_toNat, bind_some]
  rfl

theorem base64EncodeLoop_three (hstop : i + 2 < stop) (hget₁ : bv[i]? = some b₁)
    (hget₂ : bv[i + 1]? = some b₂) (hget₃ : bv[i + 2]? = some b₃) (hlt : j + 3 < dst.length) :
    base64EncodeLoop bv stop i j dst =
      base64EncodeLoop bv stop (i + 3) (j + 4)
        (setFour dst j (encChar (sextet₁ b₁)) (encChar (sextet₂ b₁ b₂))
          (encChar (sextet₃ b₂ b₃)) (encChar (sextet₄ b₃))) := by
  rw [base64EncodeLoop, if_neg (by omega)]
  simp only [u8Ref_eq hget₁, u8Ref_eq hget₂, u8Ref_eq hget₃, bind_eq_bind, bind_some]
  rw [show b₁.toNat >>> 2 = sextet₁ b₁ from rfl, enc_eq (sextet₁_lt b₁), show ((0b11 &&& b₁.toNat)
    <<< 4) ||| bitField b₂.toNat 4 8 = sextet₂ b₁ b₂ from rfl, enc_eq (sextet₂_lt b₁ b₂), show
    (bitField b₂.toNat 0 4 <<< 2) ||| bitField b₃.toNat 6 8 = sextet₃ b₂ b₃ from rfl, enc_eq
    (sextet₃_lt b₂ b₃), show 0b111111 &&& b₃.toNat = sextet₄ b₃ from rfl, enc_eq (sextet₄_lt b₃)]
  simp (disch := (try simp only [length_set]); omega) only [u8Set_toNat, bind_some]
  rfl

end Steps

/-- The loop writes the code of the bytes that are left behind `out`. -/
theorem base64EncodeLoop_spec {rest : List UInt8} {stop i j : ℕ}
    (hpart : (bv.take stop).drop i = rest) (hi : i + rest.length = stop)
    (hpre : out <+: dst) (hj : j = out.length)
    (hroom : out.length + (encode rest).length ≤ dst.length) :
    ∃ res, base64EncodeLoop bv stop i j dst = some res ∧ res.length = dst.length ∧
      out ++ encode rest <+: res := by
  rw [length_encode] at hroom
  induction rest using encode.induct generalizing i j out dst with
  | case1 =>
    obtain rfl : i = stop := hi
    exact ⟨dst, base64EncodeLoop_nil, rfl, by rwa [encode, append_nil]⟩
  | case2 b₁ =>
    obtain ⟨hget₁, -, -⟩ := peel hpart
    simp only [length_cons, length_nil] at hi hroom
    have hlt : j + 3 < dst.length := by omega
    exact ⟨_, base64EncodeLoop_one hi.symm hget₁ hlt, length_setFour _ _ _ _ _,
      prefix_setFour _ _ _ _ hpre hj hlt⟩
  | case3 b₁ b₂ =>
    obtain ⟨hget₁, hpart, -⟩ := peel hpart
    obtain ⟨hget₂, -, -⟩ := peel hpart
    simp only [length_cons, length_nil] at hi hroom
    have hlt : j + 3 < dst.length := by omega
    exact ⟨_, base64EncodeLoop_two hi.symm hget₁ hget₂ hlt, length_setFour _ _ _ _ _,
      prefix_setFour _ _ _ _ hpre hj hlt⟩
  | case4 b₁ b₂ b₃ rest ih =>
    obtain ⟨hget₁, hpart, -⟩ := peel hpart
    obtain ⟨hget₂, hpart, -⟩ := peel hpart
    obtain ⟨hget₃, hpart, hstop⟩ := peel hpart
    simp only [length_cons] at hi hroom
    have hlt : j + 3 < dst.length := by omega
    have hnext := prefix_setFour (encChar (sextet₁ b₁)) (encChar (sextet₂ b₁ b₂))
      (encChar (sextet₃ b₂ b₃)) (encChar (sextet₄ b₃)) hpre hj hlt
    obtain ⟨res, hrun, hlength, hres⟩ := ih (j := j + 4) hpart (by omega) hnext
      (by rw [length_append, hj]; rfl)
      (by
        rw [length_setFour, length_append]
        simp only [length_cons, length_nil]
        omega)
    refine ⟨res, ?_, hlength.trans (length_setFour _ _ _ _ _), ?_⟩
    · rw [base64EncodeLoop_three hstop hget₁ hget₂ hget₃ hlt, hrun]
    · rwa [encode, ← append_assoc]

theorem base64EncodeBytevector_eq (bv : List UInt8) :
    base64EncodeBytevector bv = some (encode bv) := by
  unfold base64EncodeBytevector
  have hlength : (bv.length / 3 + if bv.length - bv.length / 3 * 3 = 0 then 0 else 1) <<< 2 =
      (encode bv).length := by
    rw [length_encode, Nat.shiftLeft_eq]
    split <;> omega
  simp only [hlength]
  obtain ⟨res, hrun, hres, hpre⟩ := @base64EncodeLoop_spec bv []
    (List.replicate (encode bv).length 0) bv bv.length 0 0
    (by rw [take_length, drop_zero]) (Nat.zero_add _) nil_prefix rfl
    (by rw [length_replicate, length_nil, Nat.zero_add])
  rw [length_replicate] at hres
  rw [hrun, ← hpre.eq_of_length (by rw [nil_append, hres]), nil_append]

end ChibiScheme.Base64
