import Mathlib.Tactic.Ring

/-!
# Parse streams and boundary checks

A parse stream is a chain of chunks that are filled from one port.  A parse reads
characters at the positions it has reached, steps on from them, and may come back to
any of them later, so how much of a chunk is buffered does not depend on the position
alone.

Every chain that a parse leaves is `buffered`: it is given by the number of its chunks
and the number of characters that have been read.  `parse-stream-char-before` asks for
the character before a position only if that is not buffered, and gives the character
before the chunk otherwise.
-/

namespace ChibiScheme.Parse

open Option

/-! ## The code -/

/-- What is in a cell of a buffer or given for it: a character, the end-of-file object
or `#f`. -/
inductive Datum where
  | char (ch : Char)
  | eof
  | no
  deriving DecidableEq

/-- A `Parse-Stream`: the cells that are filled, whose number is the offset, and the
character before. -/
structure Chunk where
  filled : List Datum
  prevChar : Datum
  deriving DecidableEq

/-- The chunks from the first on, each the tail of the one before, and what the port has
left. -/
structure Source where
  chunks : List Chunk
  port : List Char
  deriving DecidableEq

/-- `read-char`, a number of times. -/
def readChars : ℕ → List Char → List Datum × List Char
  | 0, port => ([], port)
  | k + 1, [] =>
    let (ds, port) := readChars k []
    (.eof :: ds, port)
  | k + 1, ch :: port =>
    let (ds, port) := readChars k port
    (.char ch :: ds, port)

/-- A slot of the buffer; a slot not yet filled holds `#f`. -/
def Chunk.cell (chunk : Chunk) (i : ℕ) : Datum := chunk.filled[i]?.getD .no

/-- The loop of `parse-stream-last-char`, from the cell before `i` down. -/
def lastCharLoop (chunk : Chunk) : ℕ → Datum
  | 0 => chunk.prevChar
  | i + 1 => if chunk.cell i = .eof then lastCharLoop chunk i else chunk.cell i

section Code

variable (len : ℕ) (alphabetic : Char → Bool)

/-- `parse-stream-fill!`; an index behind the buffer is an error. -/
def parseStreamFill (source : Source) (c i : ℕ) : Option Source := do
  let chunk ← source.chunks[c]?
  if chunk.filled.length ≤ i then
    if len ≤ i then none
    else
      let (ds, port) := readChars (i + 1 - chunk.filled.length) source.port
      return ⟨source.chunks.set c { chunk with filled := chunk.filled ++ ds }, port⟩
  else return source

/-- `parse-stream-ref` -/
def parseStreamRef (source : Source) (c i : ℕ) : Option (Datum × Source) := do
  let source ← parseStreamFill len source c i
  let chunk ← source.chunks[c]?
  return (← chunk.filled[i]?, source)

/-- `parse-stream-end?` -/
def parseStreamEnd (source : Source) (c i : ℕ) : Option (Bool × Source) := do
  let (d, source) ← parseStreamRef len source c i
  return (d = .eof, source)

/-- `parse-stream-last-char` -/
def parseStreamLastChar (chunk : Chunk) : Datum :=
  lastCharLoop chunk (min (len - 1) chunk.filled.length + 1)

/-- `parse-stream-tail`, which makes the next chunk if there is none. -/
def parseStreamTail (source : Source) (c : ℕ) : Option Source := do
  let chunk ← source.chunks[c]?
  if c + 1 < source.chunks.length then return source
  else return { source with chunks := source.chunks ++ [⟨[], parseStreamLastChar len chunk⟩] }

/-- `parse-stream-next-source` and `parse-stream-next-index` -/
def parseStreamNext (source : Source) (c i : ℕ) : Option (Source × ℕ × ℕ) :=
  if len ≤ i + 1 then (parseStreamTail len source c).map fun source => (source, c + 1, 0)
  else some (source, c, i + 1)

/-- `parse-stream-char-before` -/
def parseStreamCharBefore (source : Source) (c i : ℕ) : Option (Datum × Source) := do
  let chunk ← source.chunks[c]?
  if i > chunk.filled.length then parseStreamRef len source c (i - 1)
  else return (chunk.prevChar, source)

/-- `char-word?`, an error for what is not a character. -/
def charWord : Datum → Option Bool
  | .char ch => some (alphabetic ch || ch == '_')
  | _ => none

/-- `parse-beginning-of-line`: whether it succeeds. -/
def parseBeginningOfLine (source : Source) (c i : ℕ) : Option (Bool × Source) := do
  let (before, source) ← parseStreamCharBefore len source c i
  return (before = .no ∨ before = .char '\n', source)

/-- The test of `parse-beginning-of-word`. -/
def parseBeginningOfWord (source : Source) (c i : ℕ) : Option (Bool × Source) := do
  let (before, source) ← parseStreamCharBefore len source c i
  let apart ← if before = .no then some true else (charWord alphabetic before).map (!·)
  if apart then
    let (atEnd, source) ← parseStreamEnd len source c i
    if atEnd then return (false, source)
    else
      let (d, source) ← parseStreamRef len source c i
      return (← charWord alphabetic d, source)
  else return (false, source)

/-- The test of `parse-end-of-word`. -/
def parseEndOfWord (source : Source) (c i : ℕ) : Option (Bool × Source) := do
  let (before, source) ← parseStreamCharBefore len source c i
  if before = .no then return (false, source)
  else if ← charWord alphabetic before then
    let (atEnd, source) ← parseStreamEnd len source c i
    if atEnd then return (true, source)
    else
      let (d, source) ← parseStreamRef len source c i
      return (!(← charWord alphabetic d), source)
  else return (false, source)

/-- The combinators that look at the character before a position. -/
inductive Boundary where
  | beginningOfLine
  | beginningOfWord
  | endOfWord
  deriving DecidableEq

/-- A combinator at a position. -/
def Boundary.check : Boundary → Source → ℕ → ℕ → Option (Bool × Source)
  | .beginningOfLine => parseBeginningOfLine len
  | .beginningOfWord => parseBeginningOfWord len alphabetic
  | .endOfWord => parseEndOfWord len alphabetic

/-- What a parse does with the stream at a position it has reached: it looks at the
character there, steps on behind a character, or checks a boundary. -/
inductive Access where
  | look (c i : ℕ)
  | next (c i : ℕ)
  | check (boundary : Boundary) (c i : ℕ)
  deriving DecidableEq

/-- A stream and the positions that a parse has reached in it. -/
structure State where
  source : Source
  reached : List (ℕ × ℕ)
  deriving DecidableEq

/-- One access; a failure leaves what has been buffered. -/
def Access.step (s : State) : Access → Option State
  | .look c i =>
    if (c, i) ∈ s.reached then do
      let (_, source) ← parseStreamRef len s.source c i
      return { s with source }
    else none
  | .next c i =>
    if (c, i) ∈ s.reached then do
      let (d, source) ← parseStreamRef len s.source c i
      match d with
      | .char _ => do
          let (source, p) ← parseStreamNext len source c i
          return ⟨source, p :: s.reached⟩
      | _ => return { s with source }
    else none
  | .check boundary c i =>
    if (c, i) ∈ s.reached then do
      let (_, source) ← boundary.check len alphabetic s.source c i
      return { s with source }
    else none

/-- Some accesses, one after the other. -/
def runAccesses (s : State) : List Access → Option State
  | [] => some s
  | access :: accesses => do runAccesses (← access.step len alphabetic s) accesses

/-- A parse of a string starts at an index of the first chunk. -/
def initial (text : List Char) (start : ℕ) : State := ⟨⟨[⟨[], .no⟩], text⟩, [(0, start)]⟩

end Code

/-! ## What a boundary is -/

/-- The character in front of position `k`. -/
def charBefore (text : List Char) (k : ℕ) : Option Char := if k = 0 then none else text[k - 1]?

section Definition

variable (alphabetic : Char → Bool)

/-- A character of a word. -/
def wordChar (ch : Char) : Bool := alphabetic ch || ch == '_'

/-- What a combinator asks of the character before. -/
def Boundary.behind : Boundary → Option Char → Bool
  | .beginningOfLine, before => before.all (· == '\n')
  | .beginningOfWord, before => before.all fun ch => !wordChar alphabetic ch
  | .endOfWord, before => before.any (wordChar alphabetic)

/-- What a combinator asks of the character behind. -/
def Boundary.ahead : Boundary → Option Char → Bool
  | .beginningOfLine, _ => true
  | .beginningOfWord, after => after.any (wordChar alphabetic)
  | .endOfWord, after => after.all fun ch => !wordChar alphabetic ch

/-- The position is such a boundary of the text. -/
def Boundary.holds (boundary : Boundary) (text : List Char) (k : ℕ) : Bool :=
  boundary.behind alphabetic (charBefore text k) && boundary.ahead alphabetic text[k]?

end Definition

/-! ## Chains of chunks -/

/-- The character at a position, or the end of the file. -/
def datumAt (text : List Char) (k : ℕ) : Datum :=
  match text[k]? with
  | some ch => .char ch
  | none => .eof

/-- What stands for the character before a position. -/
def datumBefore (text : List Char) (k : ℕ) : Datum := if k = 0 then .no else datumAt text (k - 1)

section Buffered

variable (len : ℕ) (text : List Char)

/-- The cells that are filled in the chunk `c` when `n` characters have been read. -/
def offset (n c : ℕ) : ℕ := min len (n - c * len)

/-- The chunk `c` when `n` characters have been read. -/
def chunkOf (n c : ℕ) : Chunk where
  filled := (List.range (offset len n c)).map fun j => datumAt text (c * len + j)
  prevChar := datumBefore text (c * len)

/-- The chain of `m` chunks when `n` characters have been read. -/
def buffered (m n : ℕ) : Source := ⟨(List.range m).map (chunkOf len text n), text.drop n⟩

variable {len text} {m n c i : ℕ}

theorem readChars_drop (k n : ℕ) :
    readChars k (text.drop n) =
      ((List.range k).map fun j => datumAt text (n + j), text.drop (n + k)) := by
  induction k generalizing n with
  | zero => rfl
  | succ k ih =>
    have hrest := ih (n + 1)
    have hrange : (List.range (k + 1)).map (fun j => datumAt text (n + j)) =
        datumAt text n :: (List.range k).map fun j => datumAt text (n + 1 + j) := by
      rw [List.range_succ_eq_map, List.map_cons, List.map_map]
      congr 1
      apply List.map_congr_left
      intro j _
      change datumAt text (n + (j + 1)) = datumAt text (n + 1 + j)
      rw [Nat.add_right_comm, Nat.add_assoc]
    rw [hrange]
    by_cases hlt : n < text.length
    · rw [List.drop_eq_getElem_cons hlt, readChars, hrest, datumAt,
        List.getElem?_eq_getElem hlt, Nat.add_right_comm, Nat.add_assoc]
    · rw [List.drop_eq_nil_of_le (by omega)] at hrest ⊢
      rw [readChars, hrest, datumAt, List.getElem?_eq_none (by omega), Nat.add_right_comm,
        Nat.add_assoc]

theorem chunks_buffered (hc : c < m) :
    (buffered len text m n).chunks[c]? = some (chunkOf len text n c) := by
  simp [buffered, hc]

theorem length_filled : (chunkOf len text n c).filled.length = offset len n c := by
  simp [chunkOf]

theorem filled_chunkOf (hi : i < offset len n c) :
    (chunkOf len text n c).filled[i]? = some (datumAt text (c * len + i)) := by
  simp [chunkOf, hi]

/-- The chunks before the last are full, and so much of the text has been there. -/
structure Chain (len : ℕ) (text : List Char) (m n : ℕ) : Prop where
  pos : 0 < m
  full : (m - 1) * len ≤ n
  short : n ≤ m * len
  here : (m - 1) * len ≤ text.length

/-- A position of a chain. -/
structure Within (len : ℕ) (text : List Char) (m : ℕ) (p : ℕ × ℕ) : Prop where
  chunk : p.1 < m
  index : p.2 < len
  position : p.1 * len + p.2 ≤ text.length

private theorem offset_full (hle : (c + 1) * len ≤ n) : offset len n c = len := by
  rw [Nat.succ_mul] at hle
  exact Nat.min_eq_left (by omega)

private theorem last_of_offset_le (hchain : Chain len text m n) (hc : c < m) (hi : i < len)
    (hle : offset len n c ≤ i) :
    c + 1 = m ∧ offset len n c = n - c * len ∧ c * len ≤ n ∧ n ≤ c * len + i := by
  have hfull := hchain.full
  have hoffset : n - c * len ≤ i := by
    unfold offset at hle
    omega
  have hlast : c + 1 = m := by
    by_contra hne
    have hmul : (c + 1) * len ≤ (m - 1) * len := Nat.mul_le_mul_right len (by omega)
    rw [Nat.succ_mul] at hmul
    omega
  have hstart : (m - 1) * len = c * len := by rw [← hlast, Nat.add_sub_cancel]
  rw [hstart] at hfull
  refine ⟨hlast, ?_, hfull, by omega⟩
  unfold offset
  omega

theorem fill_buffered (hchain : Chain len text m n) (hc : c < m) (hi : i < len) :
    parseStreamFill len (buffered len text m n) c i =
      some (buffered len text m (max n (c * len + i + 1))) := by
  rw [parseStreamFill, chunks_buffered hc, bind_eq_bind, bind_some, length_filled]
  by_cases hle : offset len n c ≤ i
  · obtain ⟨hlast, hoffset, hstart, hread⟩ := last_of_offset_le hchain hc hi hle
    have hmax : max n (c * len + i + 1) = c * len + i + 1 := Nat.max_eq_right (by omega)
    have hport : n + (i + 1 - offset len n c) = c * len + i + 1 := by omega
    rw [if_pos hle, if_neg (by omega), hmax, buffered, readChars_drop, hport]
    -- the cells that are filled now are those up to the index
    have hfilled : (chunkOf len text n c).filled ++
        (List.range (i + 1 - offset len n c)).map (fun j => datumAt text (n + j)) =
          (chunkOf len text (c * len + i + 1) c).filled := by
      have hnew : offset len (c * len + i + 1) c = offset len n c + (i + 1 - offset len n c) := by
        unfold offset at *
        omega
      rw [chunkOf, chunkOf, hnew, List.range_add, List.map_append, List.map_map]
      congr 1
      apply List.map_congr_left
      intro j _
      change datumAt text (n + j) = datumAt text (c * len + (offset len n c + j))
      congr 1
      omega
    have hchunk : { chunkOf len text n c with filled := (chunkOf len text n c).filled ++
        (List.range (i + 1 - offset len n c)).map (fun j => datumAt text (n + j)) } =
          chunkOf len text (c * len + i + 1) c := by
      rw [hfilled]
      rfl
    dsimp only
    rw [hchunk, buffered]
    congr 2
    apply List.ext_getElem (by simp)
    intro c' hleft hright
    rw [List.getElem_set]
    split
    · rename_i heq
      simp [heq]
    · rename_i hne
      simp only [List.length_set, List.length_map, List.length_range] at hleft
      have hmul : (c' + 1) * len ≤ c * len := Nat.mul_le_mul_right len (by omega)
      have hold : offset len n c' = len := offset_full (hmul.trans hstart)
      have hnew : offset len (c * len + i + 1) c' = len := offset_full (by omega)
      simp [chunkOf, hold, hnew]
  · rw [if_neg hle]
    have hmax : max n (c * len + i + 1) = n := by
      unfold offset at hle
      omega
    rw [hmax]
    rfl

theorem Chain.read (hchain : Chain len text m n) (hc : c < m) (hi : i < len) :
    Chain len text m (max n (c * len + i + 1)) := by
  have hmul : (c + 1) * len ≤ m * len := Nat.mul_le_mul_right len hc
  rw [Nat.succ_mul] at hmul
  refine ⟨hchain.pos, hchain.full.trans (Nat.le_max_left _ _), ?_, hchain.here⟩
  have hshort := hchain.short
  omega

theorem ref_buffered (hchain : Chain len text m n) (hc : c < m) (hi : i < len) :
    parseStreamRef len (buffered len text m n) c i =
      some (datumAt text (c * len + i), buffered len text m (max n (c * len + i + 1))) := by
  have hfilled : i < offset len (max n (c * len + i + 1)) c := by
    unfold offset
    omega
  rw [parseStreamRef, fill_buffered hchain hc hi, bind_eq_bind, bind_some,
    chunks_buffered hc, bind_eq_bind, bind_some, filled_chunkOf hfilled]
  rfl

theorem end_buffered (hchain : Chain len text m n) (hc : c < m) (hi : i < len) :
    parseStreamEnd len (buffered len text m n) c i =
      some (decide (datumAt text (c * len + i) = .eof),
        buffered len text m (max n (c * len + i + 1))) := by
  rw [parseStreamEnd, ref_buffered hchain hc hi]
  rfl

theorem lastChar_buffered (hlen : 0 < len) (hfull : (c + 1) * len ≤ n)
    (htext : (c + 1) * len ≤ text.length) :
    parseStreamLastChar len (chunkOf len text n c) = datumBefore text ((c + 1) * len) := by
  have hmul : (c + 1) * len = c * len + len := Nat.succ_mul c len
  have hoffset : offset len n c = len := offset_full hfull
  have hcell : (chunkOf len text n c).cell (len - 1) = datumAt text (c * len + (len - 1)) := by
    rw [Chunk.cell, filled_chunkOf (by omega), getD_some]
  have hchar : datumAt text (c * len + (len - 1)) ≠ .eof := by
    rw [datumAt, List.getElem?_eq_getElem (by omega)]
    simp
  have hstart : min (len - 1) (chunkOf len text n c).filled.length = len - 1 := by
    rw [length_filled, hoffset]
    omega
  have hbefore : (c + 1) * len - 1 = c * len + (len - 1) := by omega
  rw [parseStreamLastChar, hstart, lastCharLoop, hcell, if_neg hchar, datumBefore,
    if_neg (by omega), hbefore]

theorem next_buffered (hchain : Chain len text m n) (hwithin : Within len text m (c, i))
    (hchar : c * len + i < text.length) (hread : c * len + i < n) :
    ∃ m' p, parseStreamNext len (buffered len text m n) c i = some (buffered len text m' n, p) ∧
      Chain len text m' n ∧ m ≤ m' ∧ Within len text m' p := by
  obtain ⟨hc, hi, -⟩ := hwithin
  dsimp only at hc hi
  have hmul : (c + 1) * len = c * len + len := Nat.succ_mul c len
  by_cases hedge : len ≤ i + 1
  · rw [parseStreamNext, if_pos hedge, parseStreamTail, chunks_buffered hc, bind_eq_bind,
      bind_some]
    have hnext : (c + 1) * len ≤ text.length := by omega
    have hlength : (buffered len text m n).chunks.length = m := by simp [buffered]
    rw [hlength]
    by_cases hmore : c + 1 < m
    · rw [if_pos hmore]
      exact ⟨m, (c + 1, 0), rfl, hchain, le_rfl, hmore, by omega, hnext⟩
    · have hlast : c + 1 = m := by omega
      have hfull : n = m * len := by
        have hshort := hchain.short
        rw [← hlast, hmul] at hshort ⊢
        omega
      have htail : buffered len text (m + 1) n = { buffered len text m n with
          chunks := (buffered len text m n).chunks ++
            [⟨[], parseStreamLastChar len (chunkOf len text n c)⟩] } := by
        have hlast_char := @lastChar_buffered len text n c (by omega)
          (by rw [hfull, hlast]) hnext
        have hempty : offset len n m = 0 := by
          unfold offset
          omega
        rw [hlast_char, hlast, buffered, buffered, List.range_succ, List.map_append]
        congr 1
        rw [List.map_singleton, chunkOf, hempty]
        rfl
      rw [if_neg hmore]
      refine ⟨m + 1, (c + 1, 0), congrArg (fun source => some (source, c + 1, 0)) htail.symm, ?_,
        Nat.le_succ m, by omega, by omega, hnext⟩
      have hsucc : (m + 1) * len = m * len + len := Nat.succ_mul m len
      have hstart : (m + 1 - 1) * len = m * len := rfl
      refine ⟨Nat.succ_pos m, ?_, ?_, ?_⟩
      · rw [hstart, hfull]
      · omega
      · rw [hstart, ← hlast]
        exact hnext
  · rw [parseStreamNext, if_neg hedge]
    exact ⟨m, (c, i + 1), rfl, hchain, le_rfl, hc, by omega, by dsimp only; omega⟩

/-! ## Boundaries -/

/-- The position whose character before is looked at: the start of the chunk, unless the
character before the position is not buffered. -/
def seen (len n c i : ℕ) : ℕ := if offset len n c < i then c * len + i else c * len

theorem datumBefore_eq {k : ℕ} (hk : k ≤ text.length) :
    datumBefore text k = match charBefore text k with
      | some ch => .char ch
      | none => .no := by
  unfold datumBefore charBefore
  split
  · rfl
  · rw [datumAt, List.getElem?_eq_getElem (by omega)]

theorem charBefore_buffered (hchain : Chain len text m n) (hwithin : Within len text m (c, i)) :
    ∃ n', Chain len text m n' ∧
      parseStreamCharBefore len (buffered len text m n) c i =
        some (datumBefore text (seen len n c i), buffered len text m n') := by
  obtain ⟨hc, hi, -⟩ := hwithin
  dsimp only at hc hi
  rw [parseStreamCharBefore, chunks_buffered hc, bind_eq_bind, bind_some, length_filled, seen]
  by_cases hlt : offset len n c < i
  · have href := ref_buffered hchain hc (i := i - 1) (by omega)
    have hpos : c * len + i - 1 = c * len + (i - 1) := by omega
    rw [if_pos hlt, if_pos hlt, href, datumBefore, if_neg (by omega), hpos]
    exact ⟨_, hchain.read hc (by omega), rfl⟩
  · rw [if_neg hlt, if_neg hlt]
    exact ⟨n, hchain, rfl⟩

variable (alphabetic : Char → Bool)

theorem ahead_buffered (hchain : Chain len text m n) (hwithin : Within len text m (c, i)) :
    ∃ n₁ n₂, Chain len text m n₁ ∧ Chain len text m n₂ ∧
      parseStreamEnd len (buffered len text m n) c i =
        some (text[c * len + i]?.isNone, buffered len text m n₁) ∧
      ∀ ch, text[c * len + i]? = some ch →
        parseStreamRef len (buffered len text m n₁) c i =
          some (.char ch, buffered len text m n₂) := by
  obtain ⟨hc, hi, -⟩ := hwithin
  dsimp only at hc hi
  have hread := hchain.read hc hi
  refine ⟨_, _, hread, hread.read hc hi, ?_, ?_⟩
  · rw [end_buffered hchain hc hi, datumAt]
    cases text[c * len + i]? with
    | none => rfl
    | some ch => simp
  · intro ch hch
    rw [ref_buffered hread hc hi, datumAt, hch]

theorem check_buffered (hchain : Chain len text m n) (hwithin : Within len text m (c, i))
    (boundary : Boundary) :
    ∃ n', Chain len text m n' ∧
      boundary.check len alphabetic (buffered len text m n) c i =
        some (boundary.behind alphabetic (charBefore text (seen len n c i)) &&
          boundary.ahead alphabetic text[c * len + i]?, buffered len text m n') := by
  obtain ⟨n₁, hchain₁, hbefore⟩ := charBefore_buffered hchain hwithin
  obtain ⟨n₂, n₃, hchain₂, hchain₃, hend, href⟩ := ahead_buffered hchain₁ hwithin
  have hseen : seen len n c i ≤ text.length := by
    have hposition := hwithin.position
    dsimp only at hposition
    unfold seen
    split <;> omega
  rw [datumBefore_eq hseen] at hbefore
  -- whether a character belongs to a word is never undefined
  have hword : ∀ ch, charWord alphabetic (.char ch) = some (wordChar alphabetic ch) :=
    fun ch => rfl
  generalize charBefore text (seen len n c i) = before at hbefore ⊢
  generalize text[c * len + i]? = after at hend href ⊢
  cases boundary with
  | beginningOfLine =>
    refine ⟨n₁, hchain₁, ?_⟩
    rw [Boundary.check, parseBeginningOfLine, hbefore]
    cases before with
    | none => rfl
    | some ch => simp [Boundary.behind, Boundary.ahead, beq_eq_decide]
  | beginningOfWord =>
    cases before with
    | none =>
      cases after with
      | none =>
        refine ⟨n₂, hchain₂, ?_⟩
        simp [Boundary.check, parseBeginningOfWord, hbefore, hend, Boundary.ahead]
      | some ch =>
        refine ⟨n₃, hchain₃, ?_⟩
        simp [Boundary.check, parseBeginningOfWord, hbefore, hend, href ch rfl, hword,
          Boundary.behind, Boundary.ahead]
    | some ch' =>
      cases hch' : wordChar alphabetic ch' with
      | true =>
        refine ⟨n₁, hchain₁, ?_⟩
        simp [Boundary.check, parseBeginningOfWord, hbefore, hword, hch', Boundary.behind]
      | false =>
        cases after with
        | none =>
          refine ⟨n₂, hchain₂, ?_⟩
          simp [Boundary.check, parseBeginningOfWord, hbefore, hend, hword, hch',
            Boundary.ahead]
        | some ch =>
          refine ⟨n₃, hchain₃, ?_⟩
          simp [Boundary.check, parseBeginningOfWord, hbefore, hend, href ch rfl, hword,
            hch', Boundary.behind, Boundary.ahead]
  | endOfWord =>
    cases before with
    | none =>
      refine ⟨n₁, hchain₁, ?_⟩
      simp [Boundary.check, parseEndOfWord, hbefore, Boundary.behind]
    | some ch' =>
      cases hch' : wordChar alphabetic ch' with
      | false =>
        refine ⟨n₁, hchain₁, ?_⟩
        simp [Boundary.check, parseEndOfWord, hbefore, hword, hch', Boundary.behind]
      | true =>
        cases after with
        | none =>
          refine ⟨n₂, hchain₂, ?_⟩
          simp [Boundary.check, parseEndOfWord, hbefore, hend, hword, hch',
            Boundary.behind, Boundary.ahead]
        | some ch =>
          refine ⟨n₃, hchain₃, ?_⟩
          simp [Boundary.check, parseEndOfWord, hbefore, hend, href ch rfl, hword, hch',
            Boundary.behind, Boundary.ahead]

/-! ## Runs -/

/-- The stream of a state is a chain and the positions are within it. -/
structure Sound (len : ℕ) (text : List Char) (s : State) : Prop where
  chain : ∃ m n, s.source = buffered len text m n ∧ Chain len text m n ∧
    ∀ p ∈ s.reached, Within len text m p

/-- Every access keeps the invariant. -/
theorem step_sound {s s' : State} (hsound : Sound len text s) {access : Access}
    (hstep : access.step len alphabetic s = some s') : Sound len text s' := by
  obtain ⟨m, n, hsource, hchain, hreached⟩ := hsound.chain
  cases access with
  | look c i =>
    rw [Access.step] at hstep
    split at hstep
    · rename_i hmem
      have hwithin := hreached _ hmem
      rw [hsource, ref_buffered hchain hwithin.chunk hwithin.index] at hstep
      rw [← some.inj hstep]
      exact ⟨m, _, rfl, hchain.read hwithin.chunk hwithin.index, hreached⟩
    · exact absurd hstep (by simp)
  | next c i =>
    rw [Access.step] at hstep
    split at hstep
    · rename_i hmem
      have hwithin := hreached _ hmem
      have hread := hchain.read hwithin.chunk hwithin.index
      rw [hsource, ref_buffered hchain hwithin.chunk hwithin.index, bind_eq_bind,
        bind_some] at hstep
      dsimp only at hstep
      cases hchar : text[c * len + i]? with
      | none =>
        have heof : datumAt text (c * len + i) = .eof := by rw [datumAt, hchar]
        rw [heof] at hstep
        rw [← some.inj hstep]
        exact ⟨m, _, rfl, hread, hreached⟩
      | some ch =>
        have hch : datumAt text (c * len + i) = .char ch := by rw [datumAt, hchar]
        obtain ⟨m', p, hnext, hchain', hmore, hp⟩ := next_buffered hread hwithin
          (List.getElem?_eq_some_iff.mp hchar).1 (Nat.le_max_right _ _)
        rw [hch] at hstep
        dsimp only at hstep
        rw [hnext] at hstep
        rw [← some.inj hstep]
        refine ⟨m', _, rfl, hchain', ?_⟩
        intro q hq
        rcases List.mem_cons.mp hq with rfl | hq
        · exact hp
        · obtain ⟨hchunk, hindex, hposition⟩ := hreached q hq
          exact ⟨hchunk.trans_le hmore, hindex, hposition⟩
    · exact absurd hstep (by simp)
  | check boundary c i =>
    rw [Access.step] at hstep
    split at hstep
    · rename_i hmem
      obtain ⟨n', hchain', hcheck⟩ :=
        check_buffered alphabetic hchain (hreached _ hmem) boundary
      rw [hsource, hcheck] at hstep
      rw [← some.inj hstep]
      exact ⟨m, n', rfl, hchain', hreached⟩
    · exact absurd hstep (by simp)

/-- So does every run. -/
theorem run_sound {s s' : State} (hsound : Sound len text s) {accesses : List Access}
    (hrun : runAccesses len alphabetic s accesses = some s') : Sound len text s' := by
  induction accesses generalizing s with
  | nil =>
    rw [← some.inj hrun]
    exact hsound
  | cons access accesses ih =>
    obtain ⟨mid, hstep, hrest⟩ := bind_eq_some_iff.mp hrun
    exact ih (step_sound alphabetic hsound hstep) hrest

theorem initial_sound {start : ℕ} (hlen : start < len) (hstart : start ≤ text.length) :
    Sound len text (initial text start) := by
  have hzero : offset len 0 0 = 0 := by
    unfold offset
    omega
  refine ⟨1, 0, ?_, ⟨Nat.one_pos, by simp, by simp, by simp⟩, ?_⟩
  · simp [initial, buffered, chunkOf, hzero, datumBefore]
  · intro p hp
    rw [List.mem_singleton.mp hp]
    exact ⟨Nat.one_pos, hlen, by simpa using hstart⟩

end Buffered

/-- Whatever has been accessed, a combinator decides by the text and the position if and
only if the position starts its chunk, the character before it is not buffered, or
that character does not make the difference. -/
theorem check_holds_iff {len : ℕ} {alphabetic : Char → Bool} {text : List Char} {start : ℕ}
    {accesses : List Access} {s : State} {c i : ℕ} (hlen : start < len)
    (hstart : start ≤ text.length)
    (hrun : runAccesses len alphabetic (initial text start) accesses = some s)
    (hreached : (c, i) ∈ s.reached) (boundary : Boundary) :
    (∃ source, boundary.check len alphabetic s.source c i =
      some (boundary.holds alphabetic text (c * len + i), source)) ↔
    i = 0 ∨ (∃ chunk, s.source.chunks[c]? = some chunk ∧ chunk.filled.length < i) ∨
      boundary.behind alphabetic (charBefore text (c * len)) =
        boundary.behind alphabetic (charBefore text (c * len + i)) ∨
      boundary.ahead alphabetic text[c * len + i]? = false := by
  obtain ⟨m, n, hsource, hchain, hall⟩ :=
    (run_sound alphabetic (initial_sound hlen hstart) hrun).chain
  have hwithin := hall _ hreached
  obtain ⟨n', -, hcheck⟩ := check_buffered alphabetic hchain hwithin boundary
  have hvalue : (∃ source, boundary.check len alphabetic s.source c i =
      some (boundary.holds alphabetic text (c * len + i), source)) ↔
      (boundary.behind alphabetic (charBefore text (seen len n c i)) &&
        boundary.ahead alphabetic text[c * len + i]?) =
          boundary.holds alphabetic text (c * len + i) := by
    rw [hsource, hcheck]
    simp
  have hoffset : (∃ chunk, s.source.chunks[c]? = some chunk ∧ chunk.filled.length < i) ↔
      offset len n c < i := by
    rw [hsource, chunks_buffered hwithin.chunk]
    simp [length_filled]
  rw [hvalue, hoffset, Boundary.holds, seen]
  -- `i` may lie behind the characters read so far
  by_cases hlt : offset len n c < i
  · rw [if_pos hlt]
    exact ⟨fun _ => Or.inr (Or.inl hlt), fun _ => rfl⟩
  · rw [if_neg hlt]
    by_cases hzero : i = 0
    · rw [hzero, Nat.add_zero]
      exact ⟨fun _ => Or.inl rfl, fun _ => rfl⟩
    · cases boundary.ahead alphabetic text[c * len + i]? with
      | true => simp [hlt, hzero]
      | false => simp

/-- Behind a blank that has been read a word begins. -/
theorem check_holds_iff_blank :
    ∃ s, runAccesses 256 Char.isAlpha (initial [' ', 'a'] 0) [.next 0 0] = some s ∧
      ∃ source,
        Boundary.beginningOfWord.check 256 Char.isAlpha s.source 0 1 = some (true, source) :=
  ⟨⟨⟨[⟨[.char ' '], .no⟩], ['a']⟩, [(0, 1), (0, 0)]⟩, by decide +kernel,
    (@check_holds_iff 256 Char.isAlpha [' ', 'a'] 0 [.next 0 0] _ 0 1 (by decide) (by decide)
      (by decide +kernel) (by decide) .beginningOfWord).mpr
        (Or.inr (Or.inr (Or.inl (by decide +kernel))))⟩

/-- In the middle of a word, behind a character that has been read, a word begins. -/
theorem check_inside_word :
    ∃ s, runAccesses 256 Char.isAlpha (initial ['a', 'b'] 0) [.next 0 0] = some s ∧
      (0, 1) ∈ s.reached ∧
      (∃ source, Boundary.beginningOfWord.check 256 Char.isAlpha s.source 0 1 =
        some (true, source)) ∧
      Boundary.beginningOfWord.holds Char.isAlpha ['a', 'b'] 1 = false :=
  ⟨⟨⟨[⟨[.char 'a'], .no⟩], ['b']⟩, [(0, 1), (0, 0)]⟩, by decide +kernel, by decide,
    ⟨⟨[⟨[.char 'a', .char 'b'], .no⟩], []⟩, by decide +kernel⟩, by decide +kernel⟩

end ChibiScheme.Parse
