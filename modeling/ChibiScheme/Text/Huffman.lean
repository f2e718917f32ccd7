import Mathlib.Data.Nat.Bitwise
import Mathlib.Tactic.NormNum
import Mathlib.Tactic.Ring

/-!
# Symbols packed into a word

A short symbol is an immediate word: the codes of its characters under a fixed
variable-length code, one above the other from bit 4 on.  `sexp-huff.h` is the table
of codes; `sexp-unhuff.h` reads a few bits at a time and decides what to read next
(`unhuff`).

That the code can be decoded is a finite check on the table (`codeword_huffTable`):
for each character the reader consumes exactly its code.  The last code of a word is
not zero, so the reader stops where the characters stop.
-/

namespace ChibiScheme

/-! ## The code -/

/-- `huff_table`: for each character the number of bits of its code, and the bits. -/
def huffTable : List (ℕ × ℕ) :=
  [(12, 0x0C00), (15, 0x0000), (15, 0x4000), (15, 0x2000), (15, 0x6000), (15, 0x0800),
    (15, 0x4800), (15, 0x2800), (15, 0x6800), (15, 0x1800), (15, 0x5800), (15, 0x3800),
    (15, 0x7800), (15, 0x0100), (15, 0x4100), (15, 0x2100), (15, 0x6100), (15, 0x1100),
    (15, 0x5100), (15, 0x3100), (15, 0x7100), (15, 0x0900), (15, 0x4900), (15, 0x2900),
    (15, 0x6900), (15, 0x1900), (15, 0x5900), (15, 0x3900), (15, 0x7900), (15, 0x0500),
    (15, 0x4500), (15, 0x2500), (15, 0x6500), (8, 0x0040), (15, 0x1500), (15, 0x5500),
    (15, 0x3500), (15, 0x7500), (15, 0x0D00), (15, 0x4D00), (15, 0x2D00), (15, 0x6D00),
    (11, 0x0300), (10, 0x0180), (15, 0x1D00), (4, 0x000D), (15, 0x5D00), (10, 0x0380),
    (15, 0x3D00), (15, 0x7D00), (14, 0x0080), (14, 0x2080), (14, 0x1080), (14, 0x3080),
    (14, 0x0880), (14, 0x2880), (14, 0x1880), (14, 0x3880), (14, 0x0480), (14, 0x2480),
    (7, 0x0050), (7, 0x0042), (7, 0x0022), (5, 0x0009), (14, 0x1480), (14, 0x3480),
    (14, 0x0C80), (14, 0x2C80), (14, 0x1C80), (14, 0x3C80), (14, 0x0280), (14, 0x2280),
    (14, 0x1280), (14, 0x3280), (14, 0x0A80), (14, 0x2A80), (14, 0x1A80), (14, 0x3A80),
    (14, 0x0680), (14, 0x2680), (14, 0x1680), (14, 0x3680), (14, 0x0E80), (14, 0x2E80),
    (14, 0x1E80), (14, 0x3E80), (14, 0x0200), (14, 0x2200), (14, 0x1200), (14, 0x3200),
    (14, 0x0A00), (14, 0x2A00), (14, 0x1A00), (14, 0x3A00), (14, 0x0600), (14, 0x2600),
    (14, 0x1600), (3, 0x0007), (7, 0x0020), (4, 0x0004), (5, 0x001A), (4, 0x0006),
    (7, 0x0002), (5, 0x0011), (6, 0x0012), (4, 0x000C), (12, 0x0400), (8, 0x00C0),
    (5, 0x0018), (6, 0x0032), (4, 0x0005), (5, 0x000A), (5, 0x0001), (7, 0x0070),
    (3, 0x0003), (5, 0x0008), (4, 0x000E), (5, 0x0019), (7, 0x0062), (7, 0x0030),
    (7, 0x0060), (7, 0x0010), (11, 0x0700), (14, 0x3600), (14, 0x0E00), (14, 0x2E00),
    (14, 0x1E00), (14, 0x3E00)]

/-- `huff_table[c]` -/
def huffEntry (c : ℕ) : ℕ × ℕ := huffTable.getD c (0, 0)

/-- What `sexp-unhuff.h` does: `res = c & (2^bits - 1); c = c >> bits;` and then, as
`res` decides, more of it or a character. -/
inductive Unhuff where
  | char (c : ℕ)
  | read (bits : ℕ) (next : ℕ → Unhuff)

/-- The character of the next code, and the bits behind it. -/
def Unhuff.run : Unhuff → ℕ → ℕ × ℕ
  | char x, c => (x, c)
  | read bits next, c => (next (c &&& (2 ^ bits - 1))).run (c >>> bits)

/-- Read `bits` bits and take the character from a table. -/
def Unhuff.table (bits : ℕ) (tab : List Char) : Unhuff :=
  .read bits fun res => .char (tab.getD res '\x00').toNat

/-- `sexp-unhuff.h`, with the tables of `sexp-hufftabs.h` written where they are
used. -/
def unhuff : Unhuff :=
  .read 3 fun res =>
    if res = 0 then
      .read 2 fun res =>
        if res = 0 then
          .read 2 fun res =>
            if res = 0 then
              .read 3 fun res =>
                if res = 0 then
                  .read 2 fun res =>
                    if res = 0 then
                      .table 3 ['\x01', '\x00', '\x03', '\x00', '\x02', '\x00', '\x04', '\x00']
                    else if ['\x01', 'j', '\x01', '\x00'].getD res '\x00' = '\x01' then
                      .table 3 ['\x05', '\x09', '\x07', '\x0b', '\x06', '\x0a', '\x08', '\x0c']
                    else .char (['\x01', 'j', '\x01', '\x00'].getD res '\x00').toNat
                else if res = 1 then
                  .table 4 ['2', ':', '6', 'B', '4', '@', '8', 'D',
                    '3', ';', '7', 'C', '5', 'A', '9', 'E']
                else if res = 2 then
                  .table 5 ['\x0d', '\x1d', '\x15', '&', '\x11', '\x22', '\x19', ',',
                    '\x0f', '\x1f', '\x17', '(', '\x13', '$', '\x1b', '0',
                    '\x0e', '\x1e', '\x16', '\x27', '\x12', '#', '\x1a', '.',
                    '\x10', ' ', '\x18', ')', '\x14', '%', '\x1c', '1']
                else if res = 4 then
                  .table 4 ['V', '^', 'Z', '|', 'X', '\x60', '\x5c', '~',
                    'W', '_', '[', '\x7d', 'Y', '\x7b', ']', '\x7f']
                else if res = 5 then
                  .table 4 ['F', 'N', 'J', 'R', 'H', 'P', 'L', 'T',
                    'G', 'O', 'K', 'S', 'I', 'Q', 'M', 'U']
                else if res = 3 then .char '+'.toNat
                else if res = 7 then .char '/'.toNat
                else .table 1 ['*', 'z']
            else if res = 1 then .char 'b'.toNat
            else if res = 3 then .char 'x'.toNat
            else .table 1 ['!', 'k']
        else if res = 1 then .char 's'.toNat
        else if res = 3 then .char 'l'.toNat
        else .table 2 ['y', 'w', '<', 'q']
    else if res = 1 then .table 2 ['p', '?', 'g', 'u']
    else if res = 2 then
      .read 2 fun res =>
        if res = 0 then .table 2 ['f', '>', '=', 'v']
        else if res = 1 then .char 'o'.toNat
        else if res = 3 then .char 'd'.toNat
        else .table 1 ['h', 'm']
    else if res = 4 then .table 1 ['c', 'i']
    else if res = 5 then .table 1 ['n', '-']
    else if res = 3 then .char 'r'.toNat
    else if res = 7 then .char 'a'.toNat
    else .table 1 ['e', 't']

/-- The bytes that end a symbol. -/
def sexpSeparators : List ℕ :=
  [0x9, 0xa, 0xb, 0xc, 0xd, 0x20, 0x22, 0x27, 0x28, 0x29, 0x2c, 0x3b, 0x5b, 0x5d, 0x7b, 0x7d]

/-- `sexp_is_separator`, of a byte. -/
def sexpIsSeparator (c : ℕ) : Bool := decide (c ∈ sexpSeparators)

/-- The characters that keep `sexp_intern` from packing a symbol. -/
def unpackable (c : ℕ) : Bool :=
  c ≤ 32 || c > 127 || c == '\x5c'.toNat || c == '|'.toNat || c == '.'.toNat || c == '#'.toNat ||
    sexpIsSeparator c

/-- How the packing loop of `sexp_intern` ends: with a word, or at the character it
cannot pack, with what it has packed so far. -/
inductive Packed where
  | immediate (word : ℕ)
  | normal (rest : List UInt8) (res : ℕ)
deriving DecidableEq

/-- `SEXP_ISYMBOL_TAG` -/
def sexpIsymbolTag : ℕ := 6

/-- `SEXP_IMMEDIATE_BITS` -/
def sexpImmediateBits : ℕ := 4

/-- The packing loop of `sexp_intern`. -/
def packLoop : List UInt8 → ℕ → ℕ → Packed
  | [], _, res => .immediate (res + sexpIsymbolTag)
  | c :: rest, space, res =>
    if unpackable c.toNat then .normal (c :: rest) res
    else
      let (newbits, bits) := huffEntry c.toNat
      if space + newbits > 64 then .normal (c :: rest) res
      else packLoop rest (space + newbits) (res ||| (bits <<< space))

/-- The loop with which `sexp_write_one` writes a packed symbol. -/
def unpackLoop : ℕ → ℕ → List UInt8
  | 0, _ => []
  | fuel + 1, c =>
    if c = 0 then []
    else
      let (res, c) := unhuff.run c
      .ofNat res :: unpackLoop fuel c

/-- The characters of a packed symbol; each takes at least one bit of the word. -/
def unpack (word : ℕ) : List UInt8 := unpackLoop 64 (word >>> sexpImmediateBits)

/-! ## Codewords -/

/-- The character for which exactly the low `len` bits of `bits` are read. -/
def Unhuff.codeword : Unhuff → ℕ → ℕ → Option ℕ
  | char x, bits, len => if bits = 0 ∧ len = 0 then some x else none
  | read k next, bits, len =>
    if k ≤ len then (next (bits % 2 ^ k)).codeword (bits / 2 ^ k) (len - k) else none

theorem Unhuff.run_of_codeword {program : Unhuff} {bits len x : ℕ}
    (hcode : program.codeword bits len = some x) (rest : ℕ) :
    program.run (bits + 2 ^ len * rest) = (x, rest) := by
  induction program generalizing bits len with
  | char y =>
    simp only [codeword] at hcode
    split at hcode
    · rename_i hzero
      simp only [Option.some.injEq] at hcode
      simp [run, hzero.1, hzero.2, hcode]
    · simp at hcode
  | read k next ih =>
    simp only [codeword] at hcode
    split at hcode
    · rename_i hk
      have hsplit : 2 ^ len = 2 ^ k * 2 ^ (len - k) := by rw [← Nat.pow_add, Nat.add_sub_cancel' hk]
      have hlow : (bits + 2 ^ len * rest) &&& (2 ^ k - 1) = bits % 2 ^ k := by
        rw [Nat.and_two_pow_sub_one_eq_mod, hsplit, Nat.mul_assoc, Nat.add_mul_mod_self_left]
      have hhigh : (bits + 2 ^ len * rest) >>> k = bits / 2 ^ k + 2 ^ (len - k) * rest := by
        rw [Nat.shiftRight_eq_div_pow, hsplit, Nat.mul_assoc,
          Nat.add_mul_div_left _ _ (Nat.two_pow_pos k)]
      rw [run, hlow, hhigh]
      exact ih _ hcode
    · simp at hcode

theorem codeword_huffTable : ∀ c : Fin 128,
    unhuff.codeword (huffEntry c).2 (huffEntry c).1 = some c.val := by
  decide +kernel

theorem huffTable_bits : ∀ c : Fin 128, 32 < c.val →
    0 < (huffEntry c).1 ∧ 0 < (huffEntry c).2 ∧ (huffEntry c).2 < 2 ^ (huffEntry c).1 := by
  decide +kernel

/-! ## Packing and unpacking -/

theorem packLoop_immediate {str : List UInt8} {space res word : ℕ} (hres : res < 2 ^ space)
    (hpacked : packLoop str space res = .immediate word) :
    ∃ m, word = res + 2 ^ space * m + sexpIsymbolTag ∧ (str ≠ [] → space + str.length ≤ 64) ∧
      ∀ fuel ≥ str.length, unpackLoop fuel m = str := by
  induction str generalizing space res with
  | nil =>
    simp only [packLoop, Packed.immediate.injEq] at hpacked
    refine ⟨0, by simp [← hpacked], fun hne => absurd rfl hne, ?_⟩
    intro fuel _
    cases fuel <;> rfl
  | cons c rest ih =>
    simp only [packLoop] at hpacked
    split at hpacked
    · simp at hpacked
    rename_i hpackable
    split at hpacked
    · simp at hpacked
    rename_i hspace
    have hrange : 32 < c.toNat ∧ c.toNat < 128 := by
      simp only [unpackable, Bool.or_eq_true, decide_eq_true_eq, not_or] at hpackable
      omega
    obtain ⟨hlen, hbits, hfit⟩ := huffTable_bits ⟨c.toNat, hrange.2⟩ hrange.1
    have hcode := codeword_huffTable ⟨c.toNat, hrange.2⟩
    generalize huffEntry c.toNat = entry at hpacked hspace hlen hbits hfit hcode
    obtain ⟨newbits, bits⟩ := entry
    simp only at hpacked hspace hlen hbits hfit hcode
    have hor : res ||| bits <<< space = res + 2 ^ space * bits := by
      rw [Nat.lor_comm, ← Nat.shiftLeft_add_eq_or_of_lt hres, Nat.shiftLeft_eq, Nat.add_comm,
        Nat.mul_comm]
    have hres' : res + 2 ^ space * bits < 2 ^ (space + newbits) := by
      calc res + 2 ^ space * bits < 2 ^ space + 2 ^ space * bits := by omega
        _ = 2 ^ space * (bits + 1) := by ring
        _ ≤ 2 ^ space * 2 ^ newbits := Nat.mul_le_mul_left _ hfit
        _ = 2 ^ (space + newbits) := by rw [Nat.pow_add]
    rw [hor] at hpacked
    obtain ⟨m, hword, hlength, hunpack⟩ := ih hres' hpacked
    refine ⟨bits + 2 ^ newbits * m, ?_, ?_, ?_⟩
    · rw [hword, Nat.pow_add]
      ring
    · intro _
      rw [List.length_cons]
      rcases eq_or_ne rest [] with rfl | hne
      · rw [List.length_nil]
        omega
      · have hle := hlength hne
        omega
    · intro fuel hfuel
      obtain ⟨fuel, rfl⟩ : ∃ k, fuel = k + 1 := ⟨fuel - 1, by rw [List.length_cons] at hfuel; omega⟩
      have hne : bits + 2 ^ newbits * m ≠ 0 := by omega
      rw [unpackLoop, if_neg hne, Unhuff.run_of_codeword hcode]
      simp only [UInt8.ofNat_toNat]
      rw [hunpack fuel (by simpa using hfuel)]

theorem unpack_packLoop {str : List UInt8} {word : ℕ}
    (hpacked : packLoop str sexpImmediateBits 0 = .immediate word) : unpack word = str := by
  obtain ⟨m, rfl, hlength, hunpack⟩ := packLoop_immediate (Nat.two_pow_pos _) hpacked
  have hshift : (0 + 2 ^ sexpImmediateBits * m + sexpIsymbolTag) >>> sexpImmediateBits = m := by
    rw [Nat.shiftRight_eq_div_pow]
    simp only [sexpImmediateBits, sexpIsymbolTag]
    omega
  rw [unpack, hshift]
  apply hunpack
  rcases eq_or_ne str [] with rfl | hne
  · simp
  · have hle := hlength hne
    omega

end ChibiScheme
