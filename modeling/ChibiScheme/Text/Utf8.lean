import Mathlib.Data.Nat.Bitwise
import Mathlib.Tactic.NormNum

/-!
# UTF-8

The encoder `sexp_utf8_encode_char` and the three decoders: of a string, of a port
and of the name of a character literal.

A byte that is written is cut to eight bits, a byte that is read is a C `int` from
then on, here a natural number.  The encoder is met by its four shapes
(`encodeChar_shape`), and each decoder is a computation on a shape.
-/

namespace ChibiScheme

open List Option

/-! ## The code -/

/-- `sexp_utf8_initial_byte_count` -/
def sexpUtf8InitialByteCount (c : ℕ) : ℕ :=
  if c < 0xC0 then 1
  else if c < 0xE0 then 2
  else ((c >>> 4) &&& 1) + 3

/-- `sexp_utf8_char_byte_count` -/
def sexpUtf8CharByteCount (c : ℕ) : ℕ :=
  if c < 0x80 then 1
  else if c < 0x800 then 2
  else if c < 0x10000 then 3
  else 4

/-- `sexp_utf8_encode_char`: the bytes written for `c`. -/
def sexpUtf8EncodeChar (len c : ℕ) : List UInt8 :=
  match len with
  | 4 => [.ofNat (0xF0 + (c >>> 18)), .ofNat (0x80 + ((c >>> 12) &&& 0x3F)),
      .ofNat (0x80 + ((c >>> 6) &&& 0x3F)), .ofNat (0x80 + (c &&& 0x3F))]
  | 3 => [.ofNat (0xE0 + (c >>> 12)), .ofNat (0x80 + ((c >>> 6) &&& 0x3F)),
      .ofNat (0x80 + (c &&& 0x3F))]
  | 2 => [.ofNat (0xC0 + (c >>> 6)), .ofNat (0x80 + (c &&& 0x3F))]
  | _ => [.ofNat c]

/-- The encoding of a character. -/
def encodeChar (c : Char) : List UInt8 :=
  sexpUtf8EncodeChar (sexpUtf8CharByteCount c.toNat) c.toNat

/-- The bytes of a string with the characters `cs`. -/
def encodeString (cs : List Char) : List UInt8 := cs.flatMap encodeChar

/-- The byte at an offset of a string.  A string is followed by a zero byte; a read
behind that, or before the string, is undefined. -/
def byteAt (str : List UInt8) (offset : ℕ) : Option ℕ :=
  if offset = str.length then some 0 else (str[offset]?).map UInt8.toNat

/-- `sexp_string_utf8_ref`, at a byte offset. -/
def sexpStringUtf8Ref (str : List UInt8) (i : ℕ) : Option (Except String ℕ) := do
  let p0 ← byteAt str i
  if p0 < 0x80 then pure (.ok p0)
  else if p0 < 0xC0 ∨ p0 > 0xF7 then pure (.error "string-ref: invalid utf8 byte")
  else if p0 < 0xE0 then
    let p1 ← byteAt str (i + 1)
    pure (.ok (((p0 &&& 0x3F) <<< 6) + (p1 &&& 0x3F)))
  else if p0 < 0xF0 then
    let p1 ← byteAt str (i + 1)
    let p2 ← byteAt str (i + 2)
    pure (.ok (((p0 &&& 0x1F) <<< 12) + ((p1 &&& 0x3F) <<< 6) + (p2 &&& 0x3F)))
  else
    let p1 ← byteAt str (i + 1)
    let p2 ← byteAt str (i + 2)
    let p3 ← byteAt str (i + 3)
    pure (.ok (((p0 &&& 0x0F) <<< 18) + ((p1 &&& 0x3F) <<< 12) + ((p2 &&& 0x3F) <<< 6)
      + (p3 &&& 0x3F)))

/-- `sexp_read_char(ctx, port) & 0x3F`, for a port with the given bytes left; the end
of the file is `-1`, whose low bits are all set. -/
def readLowBits : List UInt8 → ℕ × List UInt8
  | [] => (0x3F, [])
  | byte :: rest => (byte.toNat &&& 0x3F, rest)

/-- `sexp_read_utf8_char`, after the byte `i` has been read; the result and the bytes
the port has left. -/
def sexpReadUtf8Char (port : List UInt8) (i : ℕ) : Except String ℕ × List UInt8 :=
  if i ≥ 0x80 then
    if i < 0xC0 ∨ i > 0xF7 then (.error "read-char: invalid utf8 byte", port)
    else if i < 0xE0 then
      let (b1, port) := readLowBits port
      (.ok (((i &&& 0x3F) <<< 6) + b1), port)
    else if i < 0xF0 then
      let (b1, port) := readLowBits port
      let (b2, port) := readLowBits port
      (.ok (((i &&& 0x1F) <<< 12) + (b1 <<< 6) + b2), port)
    else
      let (b1, port) := readLowBits port
      let (b2, port) := readLowBits port
      let (b3, port) := readLowBits port
      (.ok (((i &&& 0x0F) <<< 18) + (b1 <<< 12) + (b2 <<< 6) + b3), port)
  else (.ok i, port)

/-- `strlen` of bytes that a zero byte follows. -/
def strlen (s : List UInt8) : ℕ := (s.takeWhile (· ≠ 0)).length

/-- `sexp_decode_utf8_char`, of the name in a character literal. -/
def sexpDecodeUtf8Char (s : List UInt8) : ℤ :=
  let byte := fun k => (s.getD k 0).toNat
  let i := byte 0
  let len := strlen s
  if i ≥ 0xC0 ∧ i ≤ 0xF7 ∧ byte 1 >>> 6 = 2 then
    if i < 0xE0 ∧ len = 2 then (((i &&& 0x3F) <<< 6) + (byte 1 &&& 0x3F) : ℕ)
    else if i < 0xF0 ∧ len = 3 ∧ byte 2 >>> 6 = 2 then
      (((i &&& 0x1F) <<< 12) + ((byte 1 &&& 0x3F) <<< 6) + (byte 2 &&& 0x3F) : ℕ)
    else if len = 4 ∧ byte 2 >>> 6 = 2 ∧ byte 3 >>> 6 = 2 then
      (((i &&& 0x0F) <<< 16) + ((byte 1 &&& 0x3F) <<< 6) + ((byte 2 &&& 0x3F) <<< 6)
        + (byte 3 &&& 0x3F) : ℕ)
    else -1
  else -1

/-! ## Shapes of an encoding -/

private theorem and_six (n : ℕ) : n &&& 0x3F = n % 64 := Nat.and_two_pow_sub_one_eq_mod n 6

private theorem and_five (n : ℕ) : n &&& 0x1F = n % 32 := Nat.and_two_pow_sub_one_eq_mod n 5

private theorem and_four (n : ℕ) : n &&& 0x0F = n % 16 := Nat.and_two_pow_sub_one_eq_mod n 4

theorem char_toNat_lt (c : Char) : c.toNat < 0x110000 := by
  rcases c.valid with hlow | ⟨-, hhigh⟩
  · exact lt_trans hlow (by norm_num)
  · exact hhigh

/-- A lead byte with the bits `a` and continuation bytes with the bits `b`, `d`, `e`:
the four forms an encoding has. -/
inductive Shape (c : ℕ) : List UInt8 → Prop
  | one {b0 : UInt8} (h0 : b0.toNat = c) (hc : c < 0x80) : Shape c [b0]
  | two {b0 b1 : UInt8} {a e : ℕ} (h0 : b0.toNat = 0xC0 + a) (h1 : b1.toNat = 0x80 + e)
      (ha : a < 32) (he : e < 64) (hc : c = a * 64 + e) (hlow : 0x80 ≤ c) : Shape c [b0, b1]
  | three {b0 b1 b2 : UInt8} {a d e : ℕ} (h0 : b0.toNat = 0xE0 + a) (h1 : b1.toNat = 0x80 + d)
      (h2 : b2.toNat = 0x80 + e) (ha : a < 16) (hd : d < 64) (he : e < 64)
      (hc : c = a * 4096 + d * 64 + e) (hlow : 0x800 ≤ c) : Shape c [b0, b1, b2]
  | four {b0 b1 b2 b3 : UInt8} {a b d e : ℕ} (h0 : b0.toNat = 0xF0 + a) (h1 : b1.toNat = 0x80 + b)
      (h2 : b2.toNat = 0x80 + d) (h3 : b3.toNat = 0x80 + e) (ha : a < 5) (hb : b < 64) (hd : d < 64)
      (he : e < 64) (hc : c = a * 262144 + b * 4096 + d * 64 + e) (hlow : 0x10000 ≤ c) :
      Shape c [b0, b1, b2, b3]

private theorem toNat_ofNat_of_lt {n : ℕ} (hn : n < 256) : (UInt8.ofNat n).toNat = n := by
  simp [UInt8.toNat_ofNat', Nat.mod_eq_of_lt hn]

theorem encodeChar_shape (c : Char) : Shape c.toNat (encodeChar c) := by
  have hlt := char_toNat_lt c
  unfold encodeChar sexpUtf8CharByteCount
  split
  · rename_i hc
    exact .one (toNat_ofNat_of_lt (by omega)) hc
  · split
    · rename_i hlow hc
      simp only [sexpUtf8EncodeChar, and_six, Nat.shiftRight_eq_div_pow]
      exact .two (toNat_ofNat_of_lt (by omega)) (toNat_ofNat_of_lt (by omega)) (by omega) (by omega)
        (by omega) (by omega)
    · split
      · rename_i hlow hc
        simp only [sexpUtf8EncodeChar, and_six, Nat.shiftRight_eq_div_pow]
        exact .three (toNat_ofNat_of_lt (by omega)) (toNat_ofNat_of_lt (by omega))
          (toNat_ofNat_of_lt (by omega)) (by omega) (by omega) (by omega) (by omega) (by omega)
      · simp only [sexpUtf8EncodeChar, and_six, Nat.shiftRight_eq_div_pow]
        exact .four (toNat_ofNat_of_lt (by omega)) (toNat_ofNat_of_lt (by omega))
          (toNat_ofNat_of_lt (by omega)) (toNat_ofNat_of_lt (by omega)) (by omega) (by omega)
          (by omega) (by omega) (by omega) (by omega)

/-! ## The decoders -/

theorem byteAt_of_getElem? {str : List UInt8} {i : ℕ} {b : UInt8} (hb : str[i]? = some b) :
    byteAt str i = some b.toNat := by
  have hlt := (List.getElem?_eq_some_iff.mp hb).1
  rw [byteAt, if_neg hlt.ne, hb]
  rfl

variable {c : ℕ} {bytes : List UInt8}

theorem sexpStringUtf8Ref_shape (hshape : Shape c bytes) (before after : List UInt8) :
    sexpStringUtf8Ref (before ++ (bytes ++ after)) before.length = some (.ok c) := by
  have hbyte : ∀ {k : ℕ} {b : UInt8}, bytes[k]? = some b →
      byteAt (before ++ (bytes ++ after)) (before.length + k) = some b.toNat := by
    intro k b hb
    apply byteAt_of_getElem?
    rw [getElem?_append_right (by omega), Nat.add_sub_cancel_left,
      getElem?_append_left (List.getElem?_eq_some_iff.mp hb).1, hb]
  have hfirst : ∀ {b : UInt8}, bytes[0]? = some b →
      byteAt (before ++ (bytes ++ after)) before.length = some b.toNat := fun hb => hbyte hb
  cases hshape with
  | one h0 hc =>
    simp only [sexpStringUtf8Ref, hfirst rfl, h0, bind_eq_bind, bind_some]
    rw [if_pos hc]
    rfl
  | two h0 h1 ha he hc =>
    simp only [sexpStringUtf8Ref, hfirst rfl, hbyte (k := 1) rfl, h0, h1, and_six,
      Nat.shiftLeft_eq, bind_eq_bind, bind_some]
    rw [if_neg (by omega), if_neg (by omega), if_pos (by omega)]
    exact congrArg (some ∘ Except.ok) (by omega)
  | three h0 h1 h2 ha hd he hc =>
    simp only [sexpStringUtf8Ref, hfirst rfl, hbyte (k := 1) rfl, hbyte (k := 2) rfl, h0, h1, h2,
      and_six, and_five, Nat.shiftLeft_eq, bind_eq_bind, bind_some]
    rw [if_neg (by omega), if_neg (by omega), if_neg (by omega), if_pos (by omega)]
    exact congrArg (some ∘ Except.ok) (by omega)
  | four h0 h1 h2 h3 ha hb hd he hc =>
    simp only [sexpStringUtf8Ref, hfirst rfl, hbyte (k := 1) rfl, hbyte (k := 2) rfl, hbyte (k :=
      3) rfl, h0, h1, h2, h3, and_six, and_four, Nat.shiftLeft_eq, bind_eq_bind, bind_some]
    rw [if_neg (by omega), if_neg (by omega), if_neg (by omega), if_neg (by omega)]
    exact congrArg (some ∘ Except.ok) (by omega)

theorem sexpReadUtf8Char_shape (hshape : Shape c bytes) (after : List UInt8) :
    ∃ b0 rest, bytes = b0 :: rest ∧ sexpReadUtf8Char (rest ++ after) b0.toNat = (.ok c, after) := by
  cases hshape with
  | one h0 hc =>
    refine ⟨_, _, rfl, ?_⟩
    rw [sexpReadUtf8Char, if_neg (by omega), h0]
    rfl
  | two h0 h1 ha he hc =>
    refine ⟨_, _, rfl, ?_⟩
    simp only [sexpReadUtf8Char, readLowBits, h0, h1, and_six, Nat.shiftLeft_eq, cons_append,
      nil_append]
    rw [if_pos (by omega), if_neg (by omega), if_pos (by omega)]
    exact congrArg (fun n => (Except.ok n, after)) (by omega)
  | three h0 h1 h2 ha hd he hc =>
    refine ⟨_, _, rfl, ?_⟩
    simp only [sexpReadUtf8Char, readLowBits, h0, h1, h2, and_six, and_five, Nat.shiftLeft_eq,
      cons_append, nil_append]
    rw [if_pos (by omega), if_neg (by omega), if_neg (by omega), if_pos (by omega)]
    exact congrArg (fun n => (Except.ok n, after)) (by omega)
  | four h0 h1 h2 h3 ha hb hd he hc =>
    refine ⟨_, _, rfl, ?_⟩
    simp only [sexpReadUtf8Char, readLowBits, h0, h1, h2, h3, and_six, and_four, Nat.shiftLeft_eq,
      cons_append, nil_append]
    rw [if_pos (by omega), if_neg (by omega), if_neg (by omega), if_neg (by omega)]
    exact congrArg (fun n => (Except.ok n, after)) (by omega)

private theorem ne_zero_of_toNat {b : UInt8} (hb : 0 < b.toNat) : b ≠ 0 := by
  rintro rfl
  exact absurd hb (by decide)

theorem strlen_tail_shape (hshape : Shape c bytes) : strlen bytes.tail = bytes.tail.length := by
  cases hshape with
  | one h0 hc => rfl
  | two h0 h1 ha he hc =>
    have hn1 := ne_zero_of_toNat (h1.symm ▸ Nat.add_pos_left (by decide) _)
    simp [strlen, hn1]
  | three h0 h1 h2 ha hd he hc =>
    have hn1 := ne_zero_of_toNat (h1.symm ▸ Nat.add_pos_left (by decide) _)
    have hn2 := ne_zero_of_toNat (h2.symm ▸ Nat.add_pos_left (by decide) _)
    simp [strlen, hn1, hn2]
  | four h0 h1 h2 h3 ha hb hd he hc =>
    have hn1 := ne_zero_of_toNat (h1.symm ▸ Nat.add_pos_left (by decide) _)
    have hn2 := ne_zero_of_toNat (h2.symm ▸ Nat.add_pos_left (by decide) _)
    have hn3 := ne_zero_of_toNat (h3.symm ▸ Nat.add_pos_left (by decide) _)
    simp [strlen, hn1, hn2, hn3]

theorem sexpDecodeUtf8Char_shape (hshape : Shape c bytes) (hlow : 0x80 ≤ c) (hhigh : c < 0x10000) :
    sexpDecodeUtf8Char bytes = c := by
  cases hshape with
  | one h0 hc => omega
  | two h0 h1 ha he hc =>
    have hn0 := ne_zero_of_toNat (h0.symm ▸ Nat.add_pos_left (by decide) _)
    have hn1 := ne_zero_of_toNat (h1.symm ▸ Nat.add_pos_left (by decide) _)
    simp only [sexpDecodeUtf8Char, strlen, getD_cons_zero, getD_cons_succ, h0, h1,
      and_six, Nat.shiftLeft_eq, Nat.shiftRight_eq_div_pow]
    rw [if_pos (by omega), if_pos ⟨by omega, by simp [hn0, hn1]⟩]
    exact congrArg Nat.cast (by omega)
  | three h0 h1 h2 ha hd he hc =>
    have hn0 := ne_zero_of_toNat (h0.symm ▸ Nat.add_pos_left (by decide) _)
    have hn1 := ne_zero_of_toNat (h1.symm ▸ Nat.add_pos_left (by decide) _)
    have hn2 := ne_zero_of_toNat (h2.symm ▸ Nat.add_pos_left (by decide) _)
    simp only [sexpDecodeUtf8Char, strlen, getD_cons_zero, getD_cons_succ, h0, h1, h2,
      and_six, and_five, Nat.shiftLeft_eq, Nat.shiftRight_eq_div_pow]
    rw [if_pos (by omega), if_neg (by omega), if_pos ⟨by omega, by simp [hn0, hn1, hn2], by omega⟩]
    exact congrArg Nat.cast (by omega)
  | four h0 h1 h2 h3 ha hb hd he hc => omega

theorem sexpDecodeUtf8Char_one (hshape : Shape c bytes) (hc : c < 0x80) :
    sexpDecodeUtf8Char bytes = -1 := by
  cases hshape with
  | one h0 _ =>
    simp only [sexpDecodeUtf8Char, getD_cons_zero, h0]
    rw [if_neg (by omega)]
  | two h0 h1 ha he hc' => omega
  | three h0 h1 h2 ha hd he hc' => omega
  | four h0 h1 h2 h3 ha hb hd he hc' => omega

/-- The decoders of strings and ports return every character that was encoded,
wherever it stands; the decoder of character names returns those of two and three
bytes and refuses single bytes, which the reader has dealt with before. -/
theorem utf8_decoders_invert (c : Char) :
    (∀ before after, sexpStringUtf8Ref (before ++ (encodeChar c ++ after)) before.length =
        some (.ok c.toNat)) ∧
      (∀ after, ∃ b0 rest, encodeChar c = b0 :: rest ∧
        sexpReadUtf8Char (rest ++ after) b0.toNat = (.ok c.toNat, after)) ∧
      (sexpUtf8CharByteCount c.toNat = 1 → sexpDecodeUtf8Char (encodeChar c) = -1) ∧
      (sexpUtf8CharByteCount c.toNat = 2 ∨ sexpUtf8CharByteCount c.toNat = 3 →
        sexpDecodeUtf8Char (encodeChar c) = c.toNat) := by
  have hshape := encodeChar_shape c
  refine ⟨fun before after => sexpStringUtf8Ref_shape hshape before after,
    fun after => sexpReadUtf8Char_shape hshape after, ?_, ?_⟩
  · intro hcount
    apply sexpDecodeUtf8Char_one hshape
    unfold sexpUtf8CharByteCount at hcount
    split at hcount
    · assumption
    · split at hcount <;> (try split at hcount) <;> omega
  · intro hcount
    apply sexpDecodeUtf8Char_shape hshape <;>
      · unfold sexpUtf8CharByteCount at hcount
        split at hcount
        · omega
        · split at hcount
          · omega
          · split at hcount <;> omega

/-- `A` is a character of one byte, and its encoding is refused as a character name. -/
theorem sexpDecodeUtf8Char_letter :
    sexpUtf8CharByteCount 'A'.toNat = 1 ∧
      ¬ (sexpDecodeUtf8Char (encodeChar 'A') = 'A'.toNat) := by
  decide

/-! ## Reading a port -/

/-- `SEXP_OP_READ_CHAR` on an open port; at the end of the file there is no character. -/
def readChar : List UInt8 → Option (Except String ℕ) × List UInt8
  | [] => (none, [])
  | b :: port =>
    if b.toNat ≥ 0x80 then (sexpReadUtf8Char port b.toNat).map some id
    else (some (.ok b.toNat), port)

/-- What one call after the other returns. -/
def readChars : ℕ → List UInt8 → List (Option (Except String ℕ))
  | 0, _ => []
  | n + 1, port => (readChar port).1 :: readChars n (readChar port).2

theorem readChar_encodeChar (c : Char) (after : List UInt8) :
    readChar (encodeChar c ++ after) = (some (.ok c.toNat), after) := by
  obtain ⟨b, rest, hencode, hread⟩ := sexpReadUtf8Char_shape (encodeChar_shape c) after
  rw [hencode, cons_append, readChar, hread]
  split
  · rfl
  · rename_i hone
    rw [sexpReadUtf8Char, if_neg hone] at hread
    obtain ⟨hchar, hafter⟩ := Prod.mk.inj hread
    rw [hchar, hafter]

/-- A port that has the text is read character by character, and ends there. -/
theorem readChars_encodeString (n : ℕ) (cs : List Char) :
    readChars n (encodeString cs) =
      (cs.take n).map (fun c => some (.ok c.toNat)) ++ replicate (n - cs.length) none := by
  induction n generalizing cs with
  | zero => rw [take_zero, Nat.zero_sub]; rfl
  | succ n ih =>
    cases cs with
    | nil =>
      have hrest := ih []
      rw [take_nil] at hrest
      exact congrArg (none :: ·) hrest
    | cons c cs =>
      rw [encodeString, flatMap_cons, readChars, readChar_encodeChar, ← encodeString, ih,
        take_succ_cons, map_cons, cons_append, length_cons, Nat.add_sub_add_right]
end ChibiScheme
