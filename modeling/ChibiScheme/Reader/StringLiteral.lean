import ChibiScheme.Text.Utf8
import ChibiScheme.Writer.RoundTrip

/-!
# String literals

`sexp_read_string` takes the bytes of a string literal into a buffer that it doubles when fewer
than five bytes are free.  A hex escape puts the encoding of its number into the buffer, up to
four bytes at once; every other character is one byte.

Numbers up to `0x80` are put as one byte.  That is the encoding for the numbers below, and for
`0x80` itself it is not (`sexpReadString_iff`).
-/

namespace ChibiScheme

open Stateful List

/-! ## The buffer -/

/-- The bytes read so far and the capacity of the buffer. -/
structure StringBuffer where
  bytes : List UInt8
  size : ℕ

/-- `INIT_STRING_BUFFER_SIZE` -/
def initStringBufferSize : ℕ := 128

namespace StringBuffer

/-- The buffer on the stack. -/
def init : StringBuffer := ⟨[], initStringBufferSize⟩

/-- The label `maybe_expand`. -/
def maybeExpand (buf : StringBuffer) : StringBuffer :=
  if buf.size ≤ buf.bytes.length + 4 then { buf with size := buf.size * 2 } else buf

/-- Write bytes to the buffer and expand it.  A write behind the end is undefined. -/
def put (buf : StringBuffer) (bs : List UInt8) : Option StringBuffer :=
  if buf.bytes.length + bs.length ≤ buf.size then
    some (maybeExpand { buf with bytes := buf.bytes ++ bs })
  else none

/-- The string, after the zero byte has been written behind it. -/
def terminate (buf : StringBuffer) : Option (List UInt8) :=
  if buf.bytes.length < buf.size then some buf.bytes else none

end StringBuffer

/-! ## The reader -/

section

variable {F : Type}

/-- An operation on the buffer; an undefined one has no result. -/
def defined {α : Type} (result : Option α) : ReadM F α := fun s => result.map fun x => (x, s)

/-- `sexp_read_char` on the bytes of the port; the end of the file is no byte. -/
def sexpReadChar : ReadM F (Option UInt8) := fun s =>
  some (s.input.head?, { s with input := s.input.tail })

end

/-- The byte that is stored for a character; `EOF` is `-1`. -/
def storedByte : Option UInt8 → UInt8
  | some c => c
  | none => 0xFF

/-- A space or a tab. -/
def isBlank (c : UInt8) : Bool := c = byte ' ' || c = byte '\t'

/-- `isspace` on bytes. -/
def isspace (c : UInt8) : Bool := c = byte ' ' || (9 ≤ c && c ≤ 13)

/-- `c = sexp_unbox_fixnum(res)`, a number cut to an `int`. -/
def cutToInt (n : ℤ) : ℤ := n.bmod (2 ^ 32)

/-- The bytes for the number of a hex escape.  The cutoff is a comparison of unsigned numbers, and
a negative number counts as one byte. -/
def escapeBytes (c : ℤ) : List UInt8 :=
  if 0x80 < c % 2 ^ 32 ∧ 0 ≤ c then sexpUtf8EncodeChar (sexpUtf8CharByteCount c.toNat) c.toNat
  else [UInt8.ofInt c]

/-- What an escape leads to: bytes for the buffer, nothing where a line is continued, or the
error of the number reader. -/
inductive Escape where
  | bytes (bs : List UInt8)
  | continued
  | failed (message : String)

/-- The bytes after a backslash and a space, with that space in front. -/
def escapedSpace (input : List UInt8) : Escape × List UInt8 :=
  let rest := input.dropWhile isBlank
  let rest := if rest.head? = some (byte '\r') then rest.tail else rest
  if rest.head? = some (byte '\n') then (.continued, rest.tail.dropWhile isBlank)
  else (.bytes [storedByte rest.head?], rest.tail)

section Reading

variable {F : Type} (flo : FlonumOps F) (tower : Arith F) (tails : NumberTails F)

/-- The number of a hex escape and the semicolon after it, which may be missing. -/
def readHexEscape (fuel : ℕ) (x : UInt8) : ReadM F Escape := do
  match ← sexpReadNumber flo tower tails fuel 16 false with
  | .fixnum n =>
    let input ← getInput
    setInput (if input.head? = some (byte ';') then input.tail else input)
    pure (.bytes (escapeBytes (cutToInt n.val)))
  | .exception message => pure (.failed message)
  | _ => pure (.bytes [x])

/-- The switch on the character after a backslash. -/
def readEscape (fuel : ℕ) : ReadM F Escape := do
  match ← sexpReadChar with
  | none => pure (.bytes [storedByte none])
  | some c =>
    if c = byte 'a' then pure (.bytes [7])
    else if c = byte 'b' then pure (.bytes [8])
    else if c = byte 'n' then pure (.bytes [10])
    else if c = byte 'r' then pure (.bytes [13])
    else if c = byte 't' then pure (.bytes [9])
    else if c = byte 'x' ∨ c = byte 'X' then readHexEscape flo tower tails fuel c
    else if isspace c then
      let (escape, rest) := escapedSpace (c :: (← getInput))
      setInput rest
      pure escape
    else pure (.bytes [c])

/-- The loop of `sexp_read_string`. -/
def readStringLoop (sentinel : UInt8) : ℕ → StringBuffer → ReadM F (Except String (List UInt8))
  | 0, _ => fun _ => none
  | fuel + 1, buf => do
    match ← sexpReadChar with
    | none => pure (.error "premature end of string")
    | some c =>
      if c = sentinel then
        let bytes ← defined buf.terminate
        pure (.ok bytes)
      else if c = byte '\\' then
        match ← readEscape flo tower tails (fuel + 1) with
        | .bytes bs =>
          let buf ← defined (buf.put bs)
          readStringLoop sentinel fuel buf
        | .continued => readStringLoop sentinel fuel buf
        | .failed message => pure (.error message)
      else
        let buf ← defined (buf.put [c])
        readStringLoop sentinel fuel buf

/-- `sexp_read_string`.  Each turn of the loop takes a character. -/
def sexpReadString (sentinel : UInt8) : ReadM F (Except String (List UInt8)) := do
  let input ← getInput
  readStringLoop flo tower tails sentinel (input.length + 1) .init

end Reading

/-! ## Room in the buffer -/

/-- More than four bytes are free, as `maybe_expand` leaves the buffer. -/
def Room (buf : StringBuffer) : Prop := buf.bytes.length + 4 < buf.size

theorem room_init : Room .init := by
  unfold Room StringBuffer.init initStringBufferSize
  decide

/-- Up to four bytes fit, and there is room again after them. -/
theorem put_room {buf : StringBuffer} (hroom : Room buf) {bs : List UInt8} (hbs : bs.length ≤ 4) :
    ∃ buf', buf.put bs = some buf' ∧ Room buf' ∧ buf'.bytes = buf.bytes ++ bs := by
  unfold Room at hroom
  have hfits : buf.bytes.length + bs.length ≤ buf.size := by omega
  refine ⟨_, if_pos hfits, ?_, ?_⟩
  · unfold Room StringBuffer.maybeExpand
    split
    · simp only [length_append]
      omega
    · rename_i hfree
      simp only [length_append] at hfree ⊢
      omega
  · unfold StringBuffer.maybeExpand
    split <;> rfl

theorem terminate_room {buf : StringBuffer} (hroom : Room buf) :
    buf.terminate = some buf.bytes := by
  unfold Room at hroom
  exact if_pos (by omega)

/-! ## One turn of the loop -/

section

variable {F : Type} {flo : FlonumOps F} {tower : Arith F} {tails : NumberTails F}
  {sentinel c : UInt8} {buf : StringBuffer} {rest : List UInt8} {h : Heap F}
  {post : Except String (List UInt8) → ReadState F → Prop}

theorem sexpReadChar_run (c : UInt8) (rest : List UInt8) (h : Heap F) :
    sexpReadChar ⟨c :: rest, h⟩ = some (some c, ⟨rest, h⟩) := rfl

theorem defined_run {α : Type} {result : Option α} {x : α} (hx : result = some x)
    (s : ReadState F) : defined result s = some (x, s) := by
  rw [hx]
  rfl

theorem loop_sentinel (fuel : ℕ) (hroom : Room buf) :
    readStringLoop flo tower tails sentinel (fuel + 1) buf ⟨sentinel :: rest, h⟩ =
      some (.ok buf.bytes, ⟨rest, h⟩) := by
  simp only [readStringLoop]
  rw [bind_run (sexpReadChar_run _ _ _)]
  simp only [if_true]
  rw [bind_run (defined_run (terminate_room hroom) _)]
  rfl

/-- A byte that is neither the sentinel nor a backslash goes into the buffer. -/
theorem loop_byte {fuel : ℕ} (hsentinel : c ≠ sentinel) (hbackslash : c ≠ byte '\\')
    (hroom : Room buf)
    (hrest : ∀ buf', Room buf' → buf'.bytes = buf.bytes ++ [c] →
      Returns (readStringLoop flo tower tails sentinel fuel buf') ⟨rest, h⟩ post) :
    Returns (readStringLoop flo tower tails sentinel (fuel + 1) buf) ⟨c :: rest, h⟩ post := by
  obtain ⟨buf', hput, hroom', hbytes⟩ := put_room hroom (show [c].length ≤ 4 by simp)
  simp only [readStringLoop]
  refine Returns.of_bind_run (sexpReadChar_run _ _ _) ?_
  simp only [if_neg hsentinel, if_neg hbackslash]
  exact Returns.of_bind_run (defined_run hput _) (hrest buf' hroom' hbytes)

theorem loop_bytes {bs : List UInt8} (hbs : ∀ c ∈ bs, c ≠ sentinel ∧ c ≠ byte '\\') :
    ∀ {fuel : ℕ} {buf : StringBuffer}, Room buf →
      (∀ buf', Room buf' → buf'.bytes = buf.bytes ++ bs →
        Returns (readStringLoop flo tower tails sentinel fuel buf') ⟨rest, h⟩ post) →
      Returns (readStringLoop flo tower tails sentinel (fuel + bs.length) buf)
        ⟨bs ++ rest, h⟩ post := by
  induction bs with
  | nil => exact fun hroom hrest => hrest _ hroom (append_nil _).symm
  | cons c bs ih =>
    intro fuel buf hroom hrest
    obtain ⟨hsentinel, hbackslash⟩ := hbs c mem_cons_self
    refine loop_byte hsentinel hbackslash hroom fun buf' hroom' hbytes => ?_
    refine ih (fun d hd => hbs d (mem_cons_of_mem _ hd)) hroom' fun buf'' hroom'' hbytes' => ?_
    exact hrest buf'' hroom'' (by rw [hbytes', hbytes, append_assoc, singleton_append])

end

/-! ## Hex escapes -/

section

variable {F : Type} {flo : FlonumOps F} {tower : Arith F} {tails : NumberTails F}
  {h : Heap F} {ds after : List UInt8} {n : ℤ}

/-- A canonical integer in the fixnum range is a fixnum. -/
theorem RepInt.fixnum {v : Val} (hv : RepInt h v n) (hrange : InFixnumRange n) :
    ∃ m, v = .fixnum m ∧ m.val = n := by
  obtain ⟨x, hx, hcanonical, hvalue⟩ := hv
  cases x with
  | fixnum m => exact ⟨m, integer?_eq_some_fixnum_iff.mp hx, hvalue⟩
  | bignum b =>
    rw [← hvalue] at hrange
    exact absurd hrange hcanonical

/-- An escape gives the bytes of its number. -/
theorem readHexEscape_spec (hds : IsNumeral 16 ds) (hne : ds ≠ []) (hlt : digitsValue 16 ds < 2 ^ 31)
    (fuel : ℕ) (x : UInt8) :
    Returns (readHexEscape flo tower tails (fuel + 1) x) ⟨ds ++ byte ';' :: after, h⟩
      fun escape s => escape = .bytes (escapeBytes (digitsValue 16 ds)) ∧ s.input = after := by
  have hnonneg := digitsValue_nonneg (show (1 : ℤ) ≤ 16 by decide) hds
  have hend : atDelimiter (byte ';' :: after) = true :=
    show sexpIsSeparator (byte ';').toNat = true by decide
  have hread : Returns (sexpReadNumber flo tower tails (fuel + 1) 16 false)
      ⟨signText false ++ (ds ++ byte ';' :: after), h⟩ _ :=
    sexpReadNumber_integer (by decide) (by decide) hds hne hend false false fuel h
  refine hread.bind fun v s hv => ?_
  have hvalue := hv.value
  rw [show (signOf false).toInt = 1 from rfl, one_mul] at hvalue
  obtain ⟨m, rfl, hm⟩ := hvalue.fixnum (by rw [inFixnumRange_iff]; omega)
  obtain ⟨input, heap⟩ := s
  have hinput : input = byte ';' :: after := hv.input
  subst hinput
  have hcut : cutToInt m.val = digitsValue 16 ds := by
    rw [cutToInt, hm]
    exact Int.bmod_eq_of_le (by omega) (by omega)
  refine Returns.of_bind_run (getInput_run _) ?_
  refine Returns.of_bind_run (setInput_run _ _ _) ?_
  exact Returns.pure ⟨by rw [hcut], by simp⟩

theorem loop_escape {sentinel : UInt8} {buf : StringBuffer} {fuel : ℕ}
    {post : Except String (List UInt8) → ReadState F → Prop} (hsentinel : byte '\\' ≠ sentinel)
    (hds : IsNumeral 16 ds) (hne : ds ≠ []) (hlt : digitsValue 16 ds < 2 ^ 31) (hroom : Room buf)
    (hbytes : (escapeBytes (digitsValue 16 ds)).length ≤ 4)
    (hrest : ∀ buf' h', Room buf' → buf'.bytes = buf.bytes ++ escapeBytes (digitsValue 16 ds) →
      Returns (readStringLoop flo tower tails sentinel fuel buf') ⟨after, h'⟩ post) :
    Returns (readStringLoop flo tower tails sentinel (fuel + 1) buf)
      ⟨byte '\\' :: byte 'x' :: (ds ++ byte ';' :: after), h⟩ post := by
  obtain ⟨buf', hput, hroom', hcontents⟩ := put_room hroom hbytes
  have hescape : Returns (readEscape flo tower tails (fuel + 1))
      ⟨byte 'x' :: (ds ++ byte ';' :: after), h⟩ _ :=
    Returns.of_bind_run (sexpReadChar_run _ _ _)
      (readHexEscape_spec hds hne hlt fuel (byte 'x'))
  simp only [readStringLoop]
  refine Returns.of_bind_run (sexpReadChar_run _ _ _) ?_
  simp only [if_neg hsentinel, if_true]
  refine hescape.bind fun escape s hresult => ?_
  obtain ⟨rfl, hinput⟩ := hresult
  obtain ⟨input, h'⟩ := s
  have hinput' : input = after := hinput
  subst hinput'
  exact Returns.of_bind_run (defined_run hput _) (hrest buf' h' hroom' hcontents)

end

/-! ## Literals -/

/-- An ordinary character of a literal, or a character that is written as a hex escape. -/
inductive Piece where
  | plain (c : Char)
  | escape (c : Char) (digits : List UInt8)

namespace Piece

/-- The character a piece stands for. -/
def char : Piece → Char
  | .plain c => c
  | .escape c _ => c

/-- The bytes of a piece. -/
def text : Piece → List UInt8
  | .plain c => encodeChar c
  | .escape _ digits => byte '\\' :: byte 'x' :: (digits ++ [byte ';'])

/-- An ordinary character is neither the quote nor a backslash, and the digits of an escape are a
hexadecimal numeral of its character. -/
def Ok : Piece → Prop
  | .plain c => c ≠ '"' ∧ c ≠ '\\'
  | .escape c digits => IsNumeral 16 digits ∧ digits ≠ [] ∧ digitsValue 16 digits = c.toNat

instance (p : Piece) : Decidable p.Ok :=
  match p with
  | .plain c => inferInstanceAs (Decidable (c ≠ '"' ∧ c ≠ '\\'))
  | .escape c digits => inferInstanceAs (Decidable (IsNumeral 16 digits ∧ digits ≠ [] ∧
      digitsValue 16 digits = c.toNat))

/-- The bytes that the reader stores. -/
def stored : Piece → List UInt8
  | .plain c => encodeChar c
  | .escape c _ => escapeBytes c.toNat

/-- The number of the escape is the one at which encodings get longer. -/
def AtCutoff : Piece → Prop
  | .plain _ => False
  | .escape c _ => c.toNat = 0x80

instance (p : Piece) : Decidable p.AtCutoff :=
  match p with
  | .plain _ => inferInstanceAs (Decidable False)
  | .escape c _ => inferInstanceAs (Decidable (c.toNat = 0x80))

end Piece

/-- The text of a literal after its opening quote. -/
def literalText (pieces : List Piece) (after : List UInt8) : List UInt8 :=
  pieces.flatMap Piece.text ++ byte '"' :: after

theorem Shape.length_pos {c : ℕ} {bytes : List UInt8} (hshape : Shape c bytes) :
    0 < bytes.length := by
  cases hshape <;> simp

theorem Shape.length_le {c : ℕ} {bytes : List UInt8} (hshape : Shape c bytes) :
    bytes.length ≤ 4 := by
  cases hshape <;> simp

/-- Below `0x80` an encoding has no byte but the character itself. -/
theorem Shape.byte_eq {c : ℕ} {bytes : List UInt8} (hshape : Shape c bytes) :
    ∀ b ∈ bytes, b.toNat < 0x80 → b.toNat = c := by
  intro b hb hlow
  cases hshape with
  | one h0 hc =>
    rw [mem_singleton.mp hb]
    exact h0
  | two h0 h1 ha he hc' =>
    simp only [mem_cons, not_mem_nil, or_false] at hb
    rcases hb with rfl | rfl <;> omega
  | three h0 h1 h2 ha hd he hc' =>
    simp only [mem_cons, not_mem_nil, or_false] at hb
    rcases hb with rfl | rfl | rfl <;> omega
  | four h0 h1 h2 h3 ha hb' hd he hc' =>
    simp only [mem_cons, not_mem_nil, or_false] at hb
    rcases hb with rfl | rfl | rfl | rfl <;> omega

theorem encodeChar_ne {c d : Char} (hne : c ≠ d) (hd : d.toNat < 0x80) :
    ∀ b ∈ encodeChar c, b ≠ byte d := by
  have hbyte : (byte d).toNat = d.toNat := by
    rw [byte, UInt8.toNat_ofNat']
    exact Nat.mod_eq_of_lt (by omega)
  rintro b hb rfl
  have hsame := (encodeChar_shape c).byte_eq _ hb (by omega)
  exact hne (Char.ext (UInt32.toNat_inj.mp (hsame.symm.trans hbyte)))

theorem escapeBytes_char (c : Char) :
    escapeBytes c.toNat = if c.toNat = 0x80 then [0x80] else encodeChar c := by
  have hlt := char_toNat_lt c
  have hmod : ((c.toNat : ℤ) % 2 ^ 32) = c.toNat := Int.emod_eq_of_lt (by omega) (by omega)
  unfold escapeBytes
  rw [hmod]
  split
  · rename_i hwide
    rw [if_neg (by omega), Int.toNat_natCast]
    rfl
  · rename_i hnarrow
    split
    · rename_i hcutoff
      rw [hcutoff]
      rfl
    · have hcount : sexpUtf8CharByteCount c.toNat = 1 := if_pos (by omega)
      rw [encodeChar, hcount, UInt8.ofInt, Int.emod_eq_of_lt (by omega) (by omega),
        Int.toNat_natCast]
      rfl

/-! ## Reading a literal -/

section

variable {F : Type} (flo : FlonumOps F) (tower : Arith F) (tails : NumberTails F)

theorem loop_pieces (after : List UInt8) (pieces : List Piece) (hok : ∀ p ∈ pieces, p.Ok) :
    ∀ (fuel : ℕ) (buf : StringBuffer) (h : Heap F),
      (pieces.flatMap Piece.text).length < fuel → Room buf →
      Returns (readStringLoop flo tower tails (byte '"') fuel buf) ⟨literalText pieces after, h⟩
        fun result s => result = .ok (buf.bytes ++ pieces.flatMap Piece.stored) ∧
          s.input = after := by
  induction pieces with
  | nil =>
    intro fuel buf h hfuel hroom
    obtain ⟨fuel, rfl⟩ := Nat.exists_eq_add_of_lt hfuel
    exact Returns.of_run (loop_sentinel _ hroom) ⟨by simp, rfl⟩
  | cons p pieces ih =>
    intro fuel buf h hfuel hroom
    have hrest := ih fun q hq => hok q (mem_cons_of_mem _ hq)
    have hp := hok p mem_cons_self
    rw [flatMap_cons, length_append] at hfuel
    cases p with
    | plain c =>
      have hlength : (Piece.text (.plain c)).length = (encodeChar c).length := rfl
      obtain ⟨fuel, rfl⟩ := Nat.exists_eq_add_of_le (show (encodeChar c).length ≤ fuel by omega)
      rw [literalText, flatMap_cons, append_assoc, add_comm]
      refine loop_bytes (fun b hb => ⟨encodeChar_ne hp.1 (by decide) b hb,
        encodeChar_ne hp.2 (by decide) b hb⟩) hroom fun buf' hroom' hbytes => ?_
      have hread := hrest fuel buf' h (by omega) hroom'
      rw [hbytes, append_assoc] at hread
      exact hread
    | escape c digits =>
      obtain ⟨hds, hne, hvalue⟩ := hp
      have hlt := char_toNat_lt c
      have hpositive : 0 < (Piece.text (.escape c digits)).length := by simp [Piece.text]
      obtain ⟨fuel, rfl⟩ := Nat.exists_eq_add_of_lt (show 0 < fuel by omega)
      have htext : literalText (.escape c digits :: pieces) after =
          byte '\\' :: byte 'x' :: (digits ++ byte ';' :: literalText pieces after) := by
        simp [literalText, Piece.text]
      rw [htext, zero_add]
      have hlength : (escapeBytes (digitsValue 16 digits)).length ≤ 4 := by
        rw [hvalue, escapeBytes_char]
        split
        · decide
        · exact (encodeChar_shape c).length_le
      refine loop_escape (by decide) hds hne (by omega) hroom hlength
        fun buf' h' hroom' hbytes => ?_
      have hread := hrest fuel buf' h' (by omega) hroom'
      rw [hbytes, hvalue, append_assoc] at hread
      exact hread

theorem sexpReadString_pieces (pieces : List Piece) (hok : ∀ p ∈ pieces, p.Ok)
    (after : List UInt8) (h : Heap F) :
    Returns (sexpReadString flo tower tails (byte '"')) ⟨literalText pieces after, h⟩
      fun result s => result = .ok (pieces.flatMap Piece.stored) ∧ s.input = after := by
  refine Returns.of_bind_run (getInput_run _) (loop_pieces flo tower tails after pieces hok _ _ h ?_ room_init)
  simp only [literalText, length_append, length_cons]
  omega

end

/-! ## The cutoff -/

theorem stored_length (p : Piece) : p.stored.length ≤ (encodeChar p.char).length ∧
    (p.AtCutoff → p.stored.length < (encodeChar p.char).length) := by
  cases p with
  | plain c => exact ⟨le_rfl, False.elim⟩
  | escape c digits =>
    have hpos := (encodeChar_shape c).length_pos
    simp only [Piece.stored, Piece.char, Piece.AtCutoff]
    rw [escapeBytes_char]
    split
    · rename_i hcutoff
      have hlong : (encodeChar c).length = 2 := by
        rw [encodeChar, hcutoff]
        rfl
      simp [hlong]
    · rename_i hother
      exact ⟨le_rfl, fun h => absurd h hother⟩

theorem stored_of_not_cutoff {p : Piece} (hp : ¬ p.AtCutoff) : p.stored = encodeChar p.char := by
  cases p with
  | plain c => rfl
  | escape c digits =>
    rw [Piece.stored, escapeBytes_char]
    exact if_neg hp

/-- The stored bytes are the encoding of the characters where no escape is at the cutoff, and
shorter otherwise. -/
theorem stored_eq_encodeString_iff (pieces : List Piece) :
    pieces.flatMap Piece.stored = encodeString (pieces.map Piece.char) ↔
      ∀ p ∈ pieces, ¬ p.AtCutoff := by
  have hle : ∀ pieces : List Piece, (pieces.flatMap Piece.stored).length ≤
      (encodeString (pieces.map Piece.char)).length := by
    intro pieces
    induction pieces with
    | nil => simp [encodeString]
    | cons p pieces ih =>
      have hp := (stored_length p).1
      simp only [encodeString, map_cons, flatMap_cons, length_append] at ih ⊢
      omega
  induction pieces with
  | nil => simp [encodeString]
  | cons p pieces ih =>
    rw [forall_mem_cons]
    simp only [encodeString, map_cons, flatMap_cons]
    constructor
    · intro heq
      have hlength := congrArg length heq
      simp only [length_append] at hlength
      have hrest := hle pieces
      simp only [encodeString] at hrest
      have hp := stored_length p
      have hnot : ¬ p.AtCutoff := fun hcutoff => by
        have := hp.2 hcutoff
        omega
      rw [stored_of_not_cutoff hnot] at heq
      exact ⟨hnot, ih.mp (append_cancel_left heq)⟩
    · intro hnot
      have heq := ih.mpr hnot.2
      rw [stored_of_not_cutoff hnot.1, heq]
      rfl

section

variable {F : Type} (flo : FlonumOps F) (tower : Arith F) (tails : NumberTails F)

/-- A literal is read as the string of its characters if and only if no escape is at the cutoff.  The
positions in the buffer are `int`s. -/
theorem sexpReadString_iff (pieces : List Piece) (hok : ∀ p ∈ pieces, p.Ok)
    (_hlength : (encodeString (pieces.map Piece.char)).length + 4 < 2 ^ 31) (after : List UInt8)
    (h : Heap F) :
    Returns (sexpReadString flo tower tails (byte '"')) ⟨literalText pieces after, h⟩
        (fun result s => result = .ok (encodeString (pieces.map Piece.char)) ∧ s.input = after) ↔
      ∀ p ∈ pieces, ¬ p.AtCutoff := by
  obtain ⟨result, s, hrun, rfl, hinput⟩ := sexpReadString_pieces flo tower tails pieces hok
    after h
  rw [← stored_eq_encodeString_iff]
  constructor
  · rintro ⟨result', s', hrun', rfl, -⟩
    rw [hrun] at hrun'
    injection hrun' with hpair
    injection hpair with hresult
    injection hresult
  · intro heq
    exact ⟨_, s, hrun, by rw [heq], hinput⟩

end

/-- `"\x3bb;s"` is the string of the letters lambda and s. -/
theorem sexpReadString_lambda :
    Returns (sexpReadString oneFlonum (arith oneFlonum 1) exactOnly (byte '"'))
      ⟨literalText [.escape 'λ' [byte '3', byte 'b', byte 'b'], .plain 's'] [], []⟩
      (fun result s => result = .ok (encodeString ['λ', 's']) ∧ s.input = []) :=
  (sexpReadString_iff oneFlonum (arith oneFlonum 1) exactOnly
    [.escape 'λ' [byte '3', byte 'b', byte 'b'], .plain 's'] (by decide +kernel) (by decide) []
    []).mpr (by decide)

/-- `"\x80;"` is not the string of the character `U+0080`. -/
theorem sexpReadString_cutoff :
    (∀ p ∈ [Piece.escape (.ofNat 0x80) [byte '8', byte '0']], p.Ok) ∧
      ¬ Returns (sexpReadString oneFlonum (arith oneFlonum 1) exactOnly (byte '"'))
        ⟨literalText [.escape (.ofNat 0x80) [byte '8', byte '0']] [], []⟩
        (fun result s => result = .ok (encodeString [.ofNat 0x80]) ∧ s.input = []) := by
  have hok : ∀ p ∈ [Piece.escape (.ofNat 0x80) [byte '8', byte '0']], p.Ok := by
    decide +kernel
  refine ⟨hok, fun hread => ?_⟩
  have hnot := (sexpReadString_iff oneFlonum (arith oneFlonum 1) exactOnly _ hok (by decide) []
    []).mp hread
  exact hnot _ mem_cons_self (by decide)

end ChibiScheme
