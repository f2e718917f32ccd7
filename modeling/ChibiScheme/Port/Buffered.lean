import ChibiScheme.Text.Utf8
import Mathlib.Tactic.Ring

/-!
# Buffered output ports

`sexp_buffered_flush`, `sexp_buffered_write_char` and `sexp_buffered_write_string_n`,
and the opcodes that call them.

The buffer of a port is the list of the bytes up to its offset.  What stands behind
the buffer is a file descriptor, the procedure of a custom port, or the list of the
chunks of a string port.  A descriptor answers each call of `write` by refusing some
of the bytes at the end; it has a list of the answers it is going to give, and takes
everything once they are used up.

One lemma says what a flush does (`sexpBufferedFlush_spec`) and one what the loop of
`sexp_buffered_write_string_n` does (`writeStringLoop_spec`): it is refused exactly
where `refusal`, which is about sizes alone, says so.
-/

namespace ChibiScheme

open List

/-! ## The code -/

/-- What is behind the buffer.  A reply is the number of bytes that one call of `write`,
or of the procedure of a custom port, does not take; with all of them refused, `write`
fails with `EAGAIN`. -/
inductive Sink where
  | fileno (accepted : List UInt8) (replies : List ℕ)
  | custom (accepted : List UInt8) (replies : List ℕ)
  | string (chunks : List (List UInt8))
deriving DecidableEq

/-- A port with its buffer and what it writes to. -/
structure Port where
  isOpen : Bool
  size : ℕ
  buf : List UInt8
  sink : Sink
deriving DecidableEq

/-- The results of `sexp_buffered_flush`: `0`; `-1` where `errno` is `EAGAIN`; `-1`. -/
inductive Flushed where
  | done
  | again
  | failed
deriving DecidableEq

/-- `sexp_buffered_flush` -/
def sexpBufferedFlush (p : Port) (forcep : Bool) : Flushed × Port :=
  if !forcep && !p.isOpen then (.failed, p)
  else
    match p.sink with
    | .fileno accepted replies =>
      if p.buf.length = 0 then (.done, p)
      else
        let res := p.buf.length - replies.headD 0
        let sink := Sink.fileno (accepted ++ p.buf.take res) replies.tail
        if res < p.buf.length then
          if 0 < res then (.done, { p with buf := p.buf.drop res, sink := sink })
          else (.again, { p with sink := sink })
        else (.done, { p with buf := [], sink := sink })
    | .custom accepted replies =>
      if !p.isOpen then (.failed, p)
      else if 0 < p.buf.length then
        -- the buffer is emptied whatever the procedure has taken
        let res := p.buf.length - replies.headD 0
        let sink := Sink.custom (accepted ++ p.buf.take res) replies.tail
        (if 0 < res then .done else .again, { p with buf := [], sink := sink })
      else (.done, p)
    | .string chunks =>
      if !p.isOpen then (.failed, p)
      else if 0 < p.buf.length then
        (.done, { p with buf := [], sink := .string (p.buf :: chunks) })
      else (.done, p)

/-- `sexp_buffered_write_char` -/
def sexpBufferedWriteChar (c : UInt8) (p : Port) : Flushed × Port :=
  if p.buf.length + 1 ≥ p.size then
    match sexpBufferedFlush p false with
    | (.done, p) => (.done, { p with buf := p.buf ++ [c] })
    | res => res
  else (.done, { p with buf := p.buf ++ [c] })

/-- The macro `sexp_write_char` -/
def sexpWriteChar (c : UInt8) (p : Port) : Flushed × Port :=
  if p.buf.length < p.size then (.done, { p with buf := p.buf ++ [c] })
  else sexpBufferedWriteChar c p

/-- What a count becomes when it is stored in a C `int`. -/
def toInt (n : ℤ) : ℤ := n.bmod (2 ^ 32)

/-- The loop of `sexp_buffered_write_string_n`, with what is left of the string and the
bytes counted so far. -/
def writeStringLoop : ℕ → List UInt8 → ℤ → Port → Option (ℤ × Flushed × Port)
  | 0, _, _, _ => none
  | fuel + 1, str, written, p =>
    if p.buf.length + str.length ≥ p.size then
      let diff := p.size - p.buf.length
      match sexpBufferedFlush { p with buf := p.buf ++ str.take diff } false with
      | (.done, p) => writeStringLoop fuel (str.drop diff) (toInt (written + p.size)) p
      | (res, p) => some (toInt (written + diff), res, p)
    else some (toInt (written + str.length), .done, { p with buf := p.buf ++ str })

/-- `sexp_buffered_write_string_n`, with the `errno` it leaves.  The first round may copy
nothing, every later one copies a byte. -/
def sexpBufferedWriteStringN (str : List UInt8) (p : Port) : Option (ℤ × Flushed × Port) :=
  writeStringLoop (str.length + 2) str 0 p

/-- `sexp_buffered_write_string`: up to the first NUL. -/
def sexpBufferedWriteString (str : List UInt8) (p : Port) : Option (ℤ × Flushed × Port) :=
  sexpBufferedWriteStringN (str.take (strlen str)) p

/-- `sexp_write_utf8_char`.  How much of the tail was written is not looked at. -/
def sexpWriteUtf8Char (c : ℕ) (p : Port) : Option (Flushed × Port) :=
  let bytes := sexpUtf8EncodeChar (sexpUtf8CharByteCount c) c
  match sexpWriteChar (bytes.headD 0) p with
  | (.done, p) => (sexpBufferedWriteString bytes.tail p).map fun res => (.done, res.2.2)
  | res => some res

/-- A string shares a bytevector with others: its own bytes are `size` many from
`offset` on. -/
structure SexpString where
  bytes : List UInt8
  offset : ℕ
  size : ℕ
  fits : offset + size ≤ bytes.length

/-- The bytes of a string, from `sexp_string_data` on. -/
def SexpString.data (str : SexpString) : List UInt8 := (str.bytes.drop str.offset).take str.size

/-- An operation on the port, with its operands. -/
inductive Instr where
  | writeChar (c : Char)
  | writeString (str : SexpString)
  | writeBytes (bytes : List UInt8) (count : ℕ)
  | flush
  | getOutputString

/-- How an opcode ends: done, to be executed again with new operands, or raising an
error. -/
inductive Outcome where
  | finished
  | retry (instr : Instr)
  | raised (message : String)

/-- `SEXP_OP_WRITE_CHAR` -/
def opWriteChar (c : Char) (p : Port) : Option (Outcome × Port) := do
  let (res, p) ← if c.toNat ≥ 0x80 then sexpWriteUtf8Char c.toNat p
    else some (sexpWriteChar (.ofNat c.toNat) p)
  match res with
  | .done => some (.finished, p)
  | .again =>
    if !p.isOpen then some (.raised "write-char: port is closed", p)
    else some (.retry (.writeChar c), p)
  | .failed =>
    if !p.isOpen then some (.raised "write-char: port is closed", p)
    else some (.raised "failed to write char to port", p)

/-- `SEXP_OP_WRITE_STRING`, after its first operand has been turned into a bytevector
and its second into a number. -/
def opWriteBytes (bytes : List UInt8) (count : ℕ) (p : Port) : Option (Outcome × Port) :=
  if count > bytes.length then some (.raised "write-string: not a valid string count", p)
  else if !p.isOpen then some (.raised "write-string: port is closed", p)
  else do
    let (i, res, p) ← sexpBufferedWriteStringN (bytes.take count) p
    if i < count ∧ res = .again then
      if i > 0 then
        some (.retry (.writeBytes (bytes.drop i.toNat) (count - i.toNat)), p)
      else some (.retry (.writeBytes bytes count), p)
    else some (.finished, p)

/-- `SEXP_OP_WRITE_STRING`, as `write-string` uses it: the bytevector of the string and
all of its length. -/
def opWriteString (str : SexpString) (p : Port) : Option (Outcome × Port) :=
  opWriteBytes str.bytes str.bytes.length p

/-- `sexp_get_output_string_op` -/
def sexpGetOutputString (p : Port) : Except String (List UInt8) :=
  if !p.isOpen then .error "output port is closed"
  else
    match p.sink with
    | .string chunks =>
      let rev := if 0 < p.buf.length then p.buf :: chunks else chunks
      .ok rev.reverse.flatten
    | _ => .error "not a string output port"

/-- One execution of an operation.  `flush-output` forces the flush and gives up when it
is refused. -/
def execute (instr : Instr) (p : Port) : Option (Outcome × Port) :=
  match instr with
  | .writeChar c => opWriteChar c p
  | .writeString str => opWriteString str p
  | .writeBytes bytes count => opWriteBytes bytes count p
  | .flush => some (.finished, (sexpBufferedFlush p true).2)
  | .getOutputString =>
    match sexpGetOutputString p with
    | .ok _ => some (.finished, p)
    | .error message => some (.raised message, p)

/-- A port and the operations still to be done; an operation that has to be done again
stays in front. -/
structure Machine where
  port : Port
  todo : List Instr

/-- One instruction; it stays if it is to be tried again. -/
def Machine.step (m : Machine) : Option Machine :=
  match m.todo with
  | [] => some m
  | instr :: rest => do
      let (outcome, p) ← execute instr m.port
      match outcome with
      | .retry instr => some ⟨p, instr :: rest⟩
      | _ => some ⟨p, rest⟩

/-- Some steps. -/
def Machine.run : ℕ → Machine → Option Machine
  | 0, m => some m
  | n + 1, m => do
      let m ← m.step
      m.run n

/-! ## What has been written -/

/-- The bytes that have left the buffer. -/
def Sink.delivered : Sink → List UInt8
  | .fileno accepted _ => accepted
  | .custom accepted _ => accepted
  | .string chunks => chunks.reverse.flatten

/-- The answers of the system that are still to come. -/
def Sink.replies : Sink → List ℕ
  | .fileno _ replies => replies
  | .custom _ replies => replies
  | .string _ => []

/-- Everything that was written to a port and not lost. -/
def Port.contents (p : Port) : List UInt8 := p.sink.delivered ++ p.buf

/-- A string port. -/
def Sink.isString : Sink → Bool
  | .string _ => true
  | _ => false

/-- The procedure of a custom port takes all that it is given. -/
def Sink.TakesAll : Sink → Prop
  | .custom _ replies => ∀ left ∈ replies, left = 0
  | _ => True

/-- An open port with its buffer in bounds, whose procedure, if it has one, takes all it
is given. -/
structure Port.Ready (p : Port) : Prop where
  isOpen : p.isOpen = true
  size_pos : 0 < p.size
  fits : p.buf.length ≤ p.size
  takesAll : p.sink.TakesAll

/-- The port after some writes. -/
structure Port.Follows (p p' : Port) : Prop where
  ready : p'.Ready
  size : p'.size = p.size
  replies : p'.sink.replies.length ≤ p.sink.replies.length
  isString : p'.sink.isString = p.sink.isString

variable {p p' : Port} {str : List UInt8}

theorem Port.Ready.follows (hready : p.Ready) : p.Follows p := ⟨hready, rfl, le_rfl, rfl⟩

theorem Port.Follows.trans {p₃ : Port} (h12 : p.Follows p') (h23 : p'.Follows p₃) : p.Follows p₃ :=
  ⟨h23.ready, h23.size.trans h12.size, h23.replies.trans h12.replies,
    h23.isString.trans h12.isString⟩

theorem Port.Ready.push (hready : p.Ready) (hroom : p.buf.length + str.length ≤ p.size) :
    { p with buf := p.buf ++ str }.Ready := by
  refine ⟨hready.isOpen, hready.size_pos, ?_, hready.takesAll⟩
  simpa using hroom

private theorem headD_mem_or {l : List ℕ} : l.headD 0 = 0 ∨ l.headD 0 ∈ l := by
  cases l with
  | nil => exact .inl rfl
  | cons left rest => exact .inr mem_cons_self

/-- A flush of a buffer that is not empty: the next reply says how many bytes stay in
it, and the flush is refused if it says all of them. -/
theorem sexpBufferedFlush_spec (hready : p.Ready) (hbuf : 0 < p.buf.length) (forcep : Bool) :
    ∃ res p', sexpBufferedFlush p forcep = (res, p') ∧ p.Follows p' ∧ p'.contents = p.contents ∧
      p'.sink.replies = p.sink.replies.tail ∧
      (p.buf.length ≤ p.sink.replies.headD 0 ∧ res = .again ∧ p'.buf = p.buf ∨
        p.sink.replies.headD 0 < p.buf.length ∧ res = .done ∧
          p'.buf.length = p.sink.replies.headD 0) := by
  obtain ⟨isOpen, size, buf, sink⟩ := p
  obtain ⟨hopen, hpos, hfits, htakes⟩ := hready
  simp only at hopen hpos hfits htakes hbuf ⊢
  subst hopen
  have hne : buf.length ≠ 0 := hbuf.ne'
  unfold sexpBufferedFlush
  cases sink with
  | fileno accepted replies =>
    simp only [Bool.not_true, Bool.and_false, Bool.false_eq_true, ↓reduceIte, hne]
    by_cases hrefused : buf.length ≤ replies.headD 0
    · have hzero : buf.length - replies.headD 0 = 0 := by omega
      rw [if_pos (by omega), if_neg (by omega)]
      refine ⟨_, _, rfl, ⟨⟨rfl, hpos, hfits, trivial⟩, rfl, by simp [Sink.replies], rfl⟩, ?_, rfl,
        .inl ⟨hrefused, rfl, rfl⟩⟩
      simp only [Port.contents, Sink.delivered, hzero, take_zero, append_nil]
    · by_cases hpart : buf.length - replies.headD 0 < buf.length
      · rw [if_pos hpart, if_pos (by omega)]
        refine ⟨_, _, rfl, ⟨⟨rfl, hpos, ?_, trivial⟩, rfl, by simp [Sink.replies], rfl⟩, ?_, rfl,
          .inr ⟨Nat.lt_of_not_le hrefused, rfl, ?_⟩⟩
        · simp only [length_drop]
          omega
        · simp only [Port.contents, Sink.delivered, append_assoc, take_append_drop]
        · simp only [length_drop, Sink.replies]
          omega
      · have hall : buf.length - replies.headD 0 = buf.length := by omega
        rw [if_neg hpart]
        refine ⟨_, _, rfl, ⟨⟨rfl, hpos, Nat.zero_le _, trivial⟩, rfl, by simp [Sink.replies], rfl⟩, ?_, rfl,
          .inr ⟨Nat.lt_of_not_le hrefused, rfl, ?_⟩⟩
        · simp only [Port.contents, Sink.delivered, hall, take_length, append_nil]
        · simp only [length_nil, Sink.replies]
          omega
  | custom accepted replies =>
    have hzero : replies.headD 0 = 0 := headD_mem_or.elim id (htakes _)
    simp only [Bool.not_true, Bool.and_false, Bool.false_eq_true, ↓reduceIte, hbuf, hzero,
      Nat.sub_zero, take_length]
    refine ⟨_, _, rfl, ⟨⟨rfl, hpos, Nat.zero_le _, ?_⟩, rfl, by simp [Sink.replies], rfl⟩, ?_, rfl,
      .inr ⟨?_, rfl, ?_⟩⟩
    · exact fun left hleft => htakes left (mem_of_mem_tail hleft)
    · simp only [Port.contents, Sink.delivered, append_nil]
    · simpa only [Sink.replies, hzero] using hbuf
    · simp only [Sink.replies, hzero, length_nil]
  | string chunks =>
    simp only [Bool.not_true, Bool.and_false, Bool.false_eq_true, ↓reduceIte, hbuf]
    refine ⟨_, _, rfl, ⟨⟨rfl, hpos, Nat.zero_le _, trivial⟩, rfl, le_rfl, rfl⟩, ?_,
      rfl, .inr ⟨hbuf, rfl, rfl⟩⟩
    simp [Port.contents, Sink.delivered]

theorem sexpBufferedFlush_nil (hready : p.Ready) (hbuf : p.buf.length = 0) (forcep : Bool) :
    sexpBufferedFlush p forcep = (.done, p) := by
  obtain ⟨isOpen, size, buf, sink⟩ := p
  obtain rfl : isOpen = true := hready.isOpen
  cases sink with
  | fileno accepted replies => simp_all [sexpBufferedFlush]
  | custom accepted replies => simp_all [sexpBufferedFlush]
  | string chunks => simp_all [sexpBufferedFlush]

/-! ## Strings -/

/-- The point at which a `sexp_buffered_write_string_n` is refused: the flushes it has
behind it, the bytes that those found in the buffer from before their round, and the
offset and the length of the rest that the refused round started with. -/
structure Refusal where
  flushes : ℕ
  backlog : ℕ
  offset : ℕ
  len : ℕ

/-- Where a `sexp_buffered_write_string_n` of `len` bytes is refused by a descriptor with
the given replies. -/
def refusal (size : ℕ) : List ℕ → ℕ → ℕ → ℕ → ℕ → Option Refusal
  | [], _, _, _, _ => none
  | left :: replies, flushes, backlog, offset, len =>
    if offset + len < size then none
    else if size ≤ left then some ⟨flushes, backlog, offset, len⟩
    else refusal size replies (flushes + 1) (backlog + offset) left (len - (size - offset))

/-- The bytes of its string that a refused round and those before it have copied, for a
string of `len` bytes. -/
def Refusal.copied (r : Refusal) (size len : ℕ) : ℕ := len - r.len + (size - r.offset)

/-- A refused call has bytes left to copy, or none; each round starts with what the flush
before it left. -/
structure Refusal.Fits (r : Refusal) (size flushes backlog len : ℕ) : Prop where
  full : size ≤ r.offset + r.len
  offset : r.offset ≤ size
  count : r.flushes * size + r.len + backlog = flushes * size + len + r.backlog
  shrinks : r.len ≤ len

theorem Refusal.Fits.copied_add {r : Refusal} {size flushes backlog len : ℕ}
    (hfits : r.Fits size flushes backlog len) :
    r.copied size len + (r.offset + r.len - size) = len := by
  obtain ⟨hfull, hoffset, -, hshrinks⟩ := hfits
  rw [Refusal.copied]
  omega

theorem toInt_toInt_add (a b : ℤ) : toInt (toInt a + b) = toInt (a + b) := Int.bmod_add_bmod

private theorem fill_spec (hready : p.Ready) (hfull : p.size ≤ p.buf.length + str.length) :
    let diff := p.size - p.buf.length
    ∃ res p', sexpBufferedFlush { p with buf := p.buf ++ str.take diff } false = (res, p') ∧
      p.Follows p' ∧ p'.contents = p.contents ++ str.take diff ∧
      p'.sink.replies = p.sink.replies.tail ∧
      (p.size ≤ p.sink.replies.headD 0 ∧ res = .again ∨
        p.sink.replies.headD 0 < p.size ∧ res = .done ∧
          p'.buf.length = p.sink.replies.headD 0) := by
  intro diff
  have hfits := hready.fits
  have hdiff : diff ≤ str.length := by omega
  have hlength : (p.buf ++ str.take diff).length = p.size := by
    rw [length_append, length_take, Nat.min_eq_left hdiff]
    omega
  have hpushed : { p with buf := p.buf ++ str.take diff }.Ready := by
    refine hready.push ?_
    rw [← length_append, hlength]
  obtain ⟨res, p', hflush, hfollows, hcontents, hreplies, hcases⟩ :=
    sexpBufferedFlush_spec hpushed (by simpa only [hlength] using hready.size_pos) false
  refine ⟨res, p', hflush, ⟨hfollows.ready, hfollows.size, hfollows.replies, hfollows.isString⟩,
    ?_, hreplies, ?_⟩
  · rw [hcontents, Port.contents, Port.contents, append_assoc]
  · simp only [hlength] at hcases
    rcases hcases with ⟨hrefused, hres, -⟩ | hdone
    · exact .inl ⟨hrefused, hres⟩
    · exact .inr hdone

/-- The loop writes the string, or stops where a flush is refused. -/
theorem writeStringLoop_spec (fuel : ℕ) {written : ℤ} {flushes : ℕ} (backlog : ℕ)
    (hready : p.Ready)
    (hfuel : str.length + 1 < fuel ∨ str.length < fuel ∧ p.buf.length < p.size)
    (hwritten : written = toInt (flushes * p.size)) :
    (refusal p.size p.sink.replies flushes backlog p.buf.length str.length = none →
      ∃ count p', writeStringLoop fuel str written p = some (count, .done, p') ∧
        p.Follows p' ∧ p'.contents = p.contents ++ str) ∧
    (∀ r, refusal p.size p.sink.replies flushes backlog p.buf.length str.length = some r →
      ∃ p', writeStringLoop fuel str written p =
          some (toInt (r.flushes * p.size + (p.size - r.offset : ℕ)), .again, p') ∧
        p.Follows p' ∧ p'.sink.replies.length < p.sink.replies.length ∧
        r.Fits p.size flushes backlog str.length ∧
        p'.contents = p.contents ++ str.take (r.copied p.size str.length)) := by
  induction fuel generalizing str written flushes backlog p with
  | zero => omega
  | succ fuel ih =>
    have hfits := hready.fits
    have hpos := hready.size_pos
    by_cases hfull : p.size ≤ p.buf.length + str.length
    swap
    · -- the rest of the string fits into the buffer
      have hrest : refusal p.size p.sink.replies flushes backlog p.buf.length str.length
          = none := by
        cases p.sink.replies with
        | nil => rfl
        | cons left replies => rw [refusal, if_pos (by omega)]
      rw [hrest]
      have hpushed : { p with buf := p.buf ++ str }.Ready := hready.push (by omega)
      refine ⟨fun _ => ⟨toInt (written + str.length), _, ?_, ⟨hpushed, rfl, le_rfl, rfl⟩, ?_⟩, by simp⟩
      · rw [writeStringLoop, if_neg (by omega)]
      · simp [Port.contents]
    obtain ⟨res, p', hflush, hfollows, hcontents, hreplies, hcases⟩ := fill_spec hready hfull
    set diff := p.size - p.buf.length with hdiff
    have hloop : writeStringLoop (fuel + 1) str written p =
        match sexpBufferedFlush { p with buf := p.buf ++ str.take diff } false with
        | (.done, p) => writeStringLoop fuel (str.drop diff) (toInt (written + p.size)) p
        | (res, p) => some (toInt (written + diff), res, p) := by
      rw [writeStringLoop, if_pos hfull]
    rw [hloop, hflush]
    rcases hcases with ⟨hrefused, rfl⟩ | ⟨hleft, rfl, hbuf⟩
    · -- refused: a reply is used up, so there was one
      cases hlist : p.sink.replies with
      | nil =>
        rw [hlist] at hrefused
        exact absurd hrefused (by simpa using hpos.ne')
      | cons left replies =>
        rw [hlist] at hrefused hreplies
        have hvalue : refusal p.size (left :: replies) flushes backlog p.buf.length str.length =
            some ⟨flushes, backlog, p.buf.length, str.length⟩ := by
          rw [refusal, if_neg (by omega), if_pos (by simpa using hrefused)]
        rw [hvalue]
        refine ⟨by simp, ?_⟩
        rintro r hr
        obtain rfl := Option.some.inj hr
        refine ⟨p', ?_, hfollows, by simp [hreplies], ⟨hfull, hfits, rfl, le_rfl⟩, ?_⟩
        · rw [hwritten, toInt_toInt_add]
        · rw [hcontents, Refusal.copied, Nat.sub_self, Nat.zero_add]
    · have hdrop : (str.drop diff).length = str.length - diff := length_drop
      -- the next turn starts with what is left
      have hnext : refusal p.size p.sink.replies flushes backlog p.buf.length str.length =
          refusal p'.size p'.sink.replies (flushes + 1) (backlog + p.buf.length) p'.buf.length
            (str.drop diff).length := by
        rw [hfollows.size, hreplies, hbuf, hdrop]
        cases hlist : p.sink.replies with
        | nil => rfl
        | cons left replies =>
          rw [refusal, if_neg (by omega), if_neg (by simpa [hlist] using hleft)]
          rfl
      have hstep := @ih p' (str.drop diff) _ (flushes + 1) (backlog + p.buf.length) hfollows.ready
        (by rw [hdrop, hfollows.size]; omega)
        (show toInt (written + p'.size) = toInt ((flushes + 1 : ℕ) * p'.size) by
          rw [hwritten, hfollows.size, toInt_toInt_add]
          push_cast
          ring_nf)
      rw [hnext]
      refine ⟨fun hnone => ?_, fun r hr => ?_⟩
      · obtain ⟨count, p'', hrun, hfollows', hcontents'⟩ := hstep.1 hnone
        refine ⟨count, p'', hrun, hfollows.trans hfollows', ?_⟩
        rw [hcontents', hcontents, append_assoc, take_append_drop]
      · obtain ⟨p'', hrun, hfollows', hused, hrfits, hcontents'⟩ := hstep.2 r hr
        rw [hfollows.size] at hrfits hcontents'
        obtain ⟨hrfull, hroffset, hrcount, hrlen⟩ := hrfits
        rw [hdrop] at hrlen hrcount
        refine ⟨p'', ?_, hfollows.trans hfollows', hused.trans_le hfollows.replies,
          ⟨hrfull, hroffset, ?_, by omega⟩, ?_⟩
        · rw [← hfollows.size]
          exact hrun
        · rw [Nat.succ_mul] at hrcount
          omega
        · have hcopied : r.copied p.size str.length =
              diff + r.copied p.size (str.drop diff).length := by
            simp only [Refusal.copied, hdrop]
            omega
          rw [hcontents', hcontents, hcopied, take_add, append_assoc]

/-- The string is written if no flush is refused. -/
theorem sexpBufferedWriteStringN_spec (hready : p.Ready) (str : List UInt8) :
    (refusal p.size p.sink.replies 0 0 p.buf.length str.length = none →
      ∃ count p', sexpBufferedWriteStringN str p = some (count, .done, p') ∧
        p.Follows p' ∧ p'.contents = p.contents ++ str) ∧
    (∀ r, refusal p.size p.sink.replies 0 0 p.buf.length str.length = some r →
      ∃ p', sexpBufferedWriteStringN str p =
          some (toInt (r.flushes * p.size + (p.size - r.offset : ℕ)), .again, p') ∧
        p.Follows p' ∧ p'.sink.replies.length < p.sink.replies.length ∧
        r.Fits p.size 0 0 str.length ∧
        p'.contents = p.contents ++ str.take (r.copied p.size str.length)) :=
  writeStringLoop_spec (str.length + 2) 0 hready (.inl (by omega)) (by simp [toInt])

/-! ## Characters -/

/-- The offset and the replies after `sexp_write_char`, if it is not refused. -/
def afterChar (size : ℕ) (replies : List ℕ) (offset : ℕ) : Option (ℕ × List ℕ) :=
  if offset < size then some (offset + 1, replies)
  else if size ≤ replies.headD 0 then none
  else some (replies.headD 0 + 1, replies.tail)

/-- A byte is written, or it is to be tried again. -/
theorem sexpWriteChar_spec (hready : p.Ready) (c : UInt8) :
    ∃ res p', sexpWriteChar c p = (res, p') ∧ p.Follows p' ∧
      (afterChar p.size p.sink.replies p.buf.length = none ∧ res = .again ∧
          p'.contents = p.contents ∧ p'.sink.replies.length < p.sink.replies.length ∨
        afterChar p.size p.sink.replies p.buf.length = some (p'.buf.length, p'.sink.replies) ∧
          res = .done ∧ p'.contents = p.contents ++ [c]) := by
  have hfits := hready.fits
  have hpos := hready.size_pos
  by_cases hroom : p.buf.length < p.size
  · have hpushed : { p with buf := p.buf ++ [c] }.Ready := hready.push hroom
    refine ⟨.done, _, by rw [sexpWriteChar, if_pos hroom], ⟨hpushed, rfl, le_rfl, rfl⟩, .inr ?_⟩
    refine ⟨?_, rfl, by simp [Port.contents]⟩
    rw [afterChar, if_pos hroom]
    simp
  · obtain ⟨res, p', hflush, hfollows, hcontents, hreplies, hcases⟩ :=
      sexpBufferedFlush_spec hready (by omega) false
    have hlength : p.buf.length = p.size := by omega
    rw [hlength] at hcases
    have hwrite : sexpWriteChar c p = match sexpBufferedFlush p false with
        | (.done, p) => (.done, { p with buf := p.buf ++ [c] })
        | res => res := by
      rw [sexpWriteChar, if_neg hroom, sexpBufferedWriteChar, if_pos (by omega)]
    rw [hwrite, hflush]
    rcases hcases with ⟨hrefused, rfl, -⟩ | ⟨hleft, rfl, hbuf⟩
    · refine ⟨_, _, rfl, hfollows, .inl ⟨?_, rfl, hcontents, ?_⟩⟩
      · rw [afterChar, if_neg hroom, if_pos hrefused]
      rw [hreplies]
      cases hlist : p.sink.replies with
      | nil =>
        rw [hlist] at hrefused
        exact absurd hrefused (by simpa using hpos.ne')
      | cons left replies => simp
    · have hpushed : { p' with buf := p'.buf ++ [c] }.Ready := by
        refine hfollows.ready.push ?_
        rw [hfollows.size, hbuf]
        exact hleft
      refine ⟨_, _, rfl, ⟨hpushed, hfollows.size, hfollows.replies, hfollows.isString⟩,
        .inr ⟨?_, rfl, ?_⟩⟩
      · rw [afterChar, if_neg hroom, if_neg (by omega)]
        simp [hbuf, hreplies]
      · rw [← hcontents]
        simp [Port.contents]

/-- A string of `len` bytes is refused before all of it has been copied. -/
def CutShort (size : ℕ) (replies : List ℕ) (offset len : ℕ) : Prop :=
  ∃ r, refusal size replies 0 0 offset len = some r ∧ size < r.offset + r.len

theorem sexpBufferedWriteStringN_whole (hready : p.Ready)
    (hwhole : ¬ CutShort p.size p.sink.replies p.buf.length str.length) :
    ∃ count res p', sexpBufferedWriteStringN str p = some (count, res, p') ∧ p.Follows p' ∧
      p'.contents = p.contents ++ str := by
  obtain ⟨hnone, hsome⟩ := sexpBufferedWriteStringN_spec hready str
  cases hrefusal : refusal p.size p.sink.replies 0 0 p.buf.length str.length with
  | none =>
    obtain ⟨count, p', hrun, hfollows, hcontents⟩ := hnone hrefusal
    exact ⟨count, _, p', hrun, hfollows, hcontents⟩
  | some r =>
    obtain ⟨p', hrun, hfollows, -, hfits, hcontents⟩ := hsome r hrefusal
    have hrest : ¬ p.size < r.offset + r.len := fun hrest => hwhole ⟨r, hrefusal, hrest⟩
    have hall : r.copied p.size str.length = str.length := by
      have hcopied := hfits.copied_add
      omega
    rw [hall, take_length] at hcontents
    exact ⟨_, _, p', hrun, hfollows, hcontents⟩

/-- A character is written, as far as its bytes are not cut short. -/
theorem sexpWriteUtf8Char_spec (hready : p.Ready) (c : Char) :
    ∃ res p', sexpWriteUtf8Char c.toNat p = some (res, p') ∧ p.Follows p' ∧
      (res = .again ∧ p'.contents = p.contents ∧
          p'.sink.replies.length < p.sink.replies.length ∨
        ∃ offset replies, afterChar p.size p.sink.replies p.buf.length = some (offset, replies) ∧
          res = .done ∧ (¬ CutShort p.size replies offset (encodeChar c).tail.length →
            p'.contents = p.contents ++ encodeChar c)) := by
  have hbytes : encodeChar c = (encodeChar c).headD 0 :: (encodeChar c).tail := by
    cases hlist : encodeChar c with
    | nil => exact absurd (hlist ▸ encodeChar_shape c) (by intro hshape; cases hshape)
    | cons b0 bytes => rfl
  obtain ⟨res, p', hwrite, hfollows, hcases⟩ := sexpWriteChar_spec hready ((encodeChar c).headD 0)
  have hrun : sexpWriteUtf8Char c.toNat p = match sexpWriteChar ((encodeChar c).headD 0) p with
      | (.done, p) =>
        (sexpBufferedWriteStringN (encodeChar c).tail p).map fun res => (.done, res.2.2)
      | res => some res := by
    simp only [sexpWriteUtf8Char, sexpBufferedWriteString]
    rw [← encodeChar, strlen_tail_shape (encodeChar_shape c), take_length]
  rw [hrun, hwrite]
  rcases hcases with ⟨-, rfl, hcontents, hused⟩ | ⟨hafter, rfl, hcontents⟩
  · exact ⟨_, _, rfl, hfollows, .inl ⟨rfl, hcontents, hused⟩⟩
  obtain ⟨hnone, hsome⟩ := sexpBufferedWriteStringN_spec hfollows.ready (encodeChar c).tail
  have htotal : ∃ count res p'', sexpBufferedWriteStringN (encodeChar c).tail p' =
      some (count, res, p'') ∧ p'.Follows p'' := by
    cases hrefusal : refusal p'.size p'.sink.replies 0 0 p'.buf.length
        (encodeChar c).tail.length with
    | none =>
      obtain ⟨count, p'', hrun, hfollows', -⟩ := hnone hrefusal
      exact ⟨count, _, p'', hrun, hfollows'⟩
    | some r =>
      obtain ⟨p'', hrun, hfollows', -⟩ := hsome r hrefusal
      exact ⟨_, _, p'', hrun, hfollows'⟩
  obtain ⟨count, res, p'', htail, hfollows'⟩ := htotal
  refine ⟨.done, p'', by simp [htail], hfollows.trans hfollows', .inr ⟨_, _, hafter, rfl, ?_⟩⟩
  intro hwhole
  rw [← hfollows.size] at hwhole
  obtain ⟨count', res', p₃, htail', -, hcontents'⟩ :=
    sexpBufferedWriteStringN_whole hfollows.ready hwhole
  obtain rfl : p'' = p₃ := by
    rw [htail] at htail'
    exact (Prod.mk.inj (Prod.mk.inj (Option.some.inj htail')).2).2
  rw [hcontents', hcontents, append_assoc]
  exact congrArg (p.contents ++ ·) hbytes.symm

/-! ## The operations -/

/-- The bytes an operation is there to write. -/
def Instr.text : Instr → List UInt8
  | .writeChar c => encodeChar c
  | .writeString str => str.data
  | .writeBytes bytes count => if count ≤ bytes.length then bytes.take count else []
  | .flush => []
  | .getOutputString => []

/-- What a list of operations is there to write. -/
def texts (instrs : List Instr) : List UInt8 := instrs.flatMap Instr.text

/-- The string shows all of its bytes. -/
def SexpString.Whole (str : SexpString) : Prop := str.offset = 0 ∧ str.size = str.bytes.length

theorem SexpString.length_data (str : SexpString) : str.data.length = str.size := by
  have hfits := str.fits
  simp only [SexpString.data, length_take, length_drop]
  omega

theorem SexpString.bytes_eq_data_iff (str : SexpString) : str.bytes = str.data ↔ str.Whole := by
  have hfits := str.fits
  constructor
  · intro heq
    have hlength := congrArg List.length heq
    rw [str.length_data] at hlength
    exact ⟨by omega, hlength.symm⟩
  · rintro ⟨hoffset, hsize⟩
    rw [SexpString.data, hoffset, hsize, drop_zero, take_length]

/-- A flush loses nothing. -/
theorem sexpBufferedFlush_keeps (hready : p.Ready) (forcep : Bool) :
    p.Follows (sexpBufferedFlush p forcep).2 ∧
      (sexpBufferedFlush p forcep).2.contents = p.contents := by
  rcases Nat.eq_zero_or_pos p.buf.length with hnil | hbuf
  · rw [sexpBufferedFlush_nil hready hnil]
    exact ⟨hready.follows, rfl⟩
  · obtain ⟨res, p', hflush, hfollows, hcontents, -⟩ := sexpBufferedFlush_spec hready hbuf forcep
    rw [hflush]
    exact ⟨hfollows, hcontents⟩

theorem opWriteBytes_of_run {bytes : List UInt8} {count : ℕ} {i : ℤ} {res : Flushed}
    (hopen : p.isOpen = true) (hcount : count ≤ bytes.length)
    (hrun : sexpBufferedWriteStringN (bytes.take count) p = some (i, res, p')) :
    opWriteBytes bytes count p = some
      (if i < count ∧ res = .again then
        .retry (if i > 0 then .writeBytes (bytes.drop i.toNat) (count - i.toNat)
          else .writeBytes bytes count)
      else .finished, p') := by
  unfold opWriteBytes
  rw [if_neg (by omega), if_neg (by simp [hopen]), hrun]
  simp only [Option.bind_eq_bind, Option.bind_some]
  split
  · split <;> rfl
  · rfl

theorem opWriteChar_ascii {c : Char} {res : Flushed} (hc : c.toNat < 0x80) (hopen : p'.isOpen = true)
    (hres : res ≠ .failed) (hrun : sexpWriteChar (.ofNat c.toNat) p = (res, p')) :
    opWriteChar c p = some (if res = .again then .retry (.writeChar c) else .finished, p') := by
  unfold opWriteChar
  rw [if_neg (by omega), hrun]
  cases res with
  | done => rfl
  | again => simp [hopen]
  | failed => exact absurd rfl hres

theorem opWriteChar_utf8 {c : Char} {res : Flushed} (hc : 0x80 ≤ c.toNat) (hopen : p'.isOpen = true)
    (hres : res ≠ .failed) (hrun : sexpWriteUtf8Char c.toNat p = some (res, p')) :
    opWriteChar c p = some (if res = .again then .retry (.writeChar c) else .finished, p') := by
  unfold opWriteChar
  rw [if_pos hc, hrun]
  cases res with
  | done => rfl
  | again => simp [hopen]
  | failed => exact absurd rfl hres

end ChibiScheme
