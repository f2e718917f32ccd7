import ChibiScheme.Text.Utf8

/-!
# Indexes and cursors of strings

`string-length`, `string-ref`, `string-index->cursor`, `string-cursor->index`,
`string-cursor-next` and `string-cursor-prev`.  An index counts characters, a
cursor is a byte offset.

The positions between the characters of a string are the splits of its characters
into those before and those after (`offset`).  Each loop is followed along such a
split.
-/

namespace ChibiScheme

open List Option

/-! ## The code -/

/-- The loop of `sexp_string_utf8_length`, from `p` up to `q`. -/
def utf8LengthLoop (str : List UInt8) (q : ℕ) : ℕ → ℕ → ℕ → Option ℕ
  | 0, _, i => some i
  | fuel + 1, p, i =>
    if p < q then do
      let byte ← byteAt str p
      utf8LengthLoop str q fuel (p + sexpUtf8InitialByteCount byte) (i + 1)
    else some i

/-- `sexp_string_utf8_length` of the first `len` bytes; every step moves on, so it
makes at most `len` of them. -/
def sexpStringUtf8Length (str : List UInt8) (len : ℕ) : Option ℕ :=
  utf8LengthLoop str len len 0 0

/-- `sexp_string_utf8_prev`, from a byte offset. -/
def sexpStringUtf8Prev (str : List UInt8) : ℕ → Option ℕ
  | 0 => none
  | p + 1 => do
      let byte ← byteAt str p
      if byte >>> 6 = 2 then sexpStringUtf8Prev str p else pure p

/-- The loop of `sexp_string_index_to_cursor`: the index still to go and the offset. -/
def indexToCursorLoop (str : List UInt8) (limit : ℕ) : ℕ → ℕ → Option (ℕ × ℕ)
  | 0, j => some (0, j)
  | i + 1, j =>
    if j < limit then do
      let byte ← byteAt str j
      indexToCursorLoop str limit i (j + sexpUtf8InitialByteCount byte)
    else some (i + 1, j)

/-- `sexp_string_index_to_cursor`; the loop is not entered for a negative index. -/
def sexpStringIndexToCursor (str : List UInt8) (index : ℤ) : Option (Except String ℕ) := do
  let (i, j) ← if 0 ≤ index then indexToCursorLoop str str.length index.toNat 0
    else pure (index.natAbs, 0)
  if i ≠ 0 then pure (.error "string-index->cursor: index out of range") else pure (.ok j)

/-- `sexp_string_cursor_to_index` -/
def sexpStringCursorToIndex (str : List UInt8) (off : ℤ) : Option (Except String ℕ) :=
  if off < 0 ∨ off > str.length then some (.error "string-cursor->index: offset out of range")
  else (sexpStringUtf8Length str off.toNat).map .ok

/-- `sexp_string_cursor_next`; the opcode checks the types of its operands only. -/
def sexpStringCursorNext (str : List UInt8) (i : ℤ) : Option (Except String ℤ) :=
  if i < 0 then none
  else (byteAt str i.toNat).map fun byte => .ok (i + sexpUtf8InitialByteCount byte)

/-- `sexp_string_cursor_prev` -/
def sexpStringCursorPrev (str : List UInt8) (i : ℤ) : Option (Except String ℤ) :=
  if i < 0 then none else (sexpStringUtf8Prev str i.toNat).map fun p => .ok p

/-- `sexp_string_utf8_index_ref` -/
def sexpStringUtf8IndexRef (str : List UInt8) (i : ℤ) : Option (Except String ℕ) := do
  match ← sexpStringIndexToCursor str i with
  | .error message => pure (.error message)
  | .ok off =>
    if off ≥ str.length then pure (.error "string-ref: index out of range")
    else sexpStringUtf8Ref str off

/-! ## Bytes at the start of a character -/

/-- The byte offset of the `i`-th character. -/
def offset (cs : List Char) (i : ℕ) : ℕ := (encodeString (cs.take i)).length

theorem encodeString_append (cs ds : List Char) :
    encodeString (cs ++ ds) = encodeString cs ++ encodeString ds := by
  simp [encodeString]

theorem encodeString_cons (c : Char) (cs : List Char) :
    encodeString (c :: cs) = encodeChar c ++ encodeString cs := by
  simp [encodeString]

theorem offset_length (cs : List Char) : offset cs cs.length = (encodeString cs).length := by
  rw [offset, take_length]

private theorem and_one (n : ℕ) : n &&& 1 = n % 2 := Nat.and_two_pow_sub_one_eq_mod n 1

theorem encodeChar_bytes (c : Char) : ∃ b0 rest, encodeChar c = b0 :: rest ∧
    sexpUtf8InitialByteCount b0.toNat = rest.length + 1 ∧ b0.toNat >>> 6 ≠ 2 ∧
    ∀ b ∈ rest, b.toNat >>> 6 = 2 := by
  have hshape := encodeChar_shape c
  generalize encodeChar c = bytes at hshape
  cases hshape with
  | one h0 hc =>
    refine ⟨_, _, rfl, ?_, ?_, by simp⟩
    · rw [h0, sexpUtf8InitialByteCount, if_pos (by omega)]
      rfl
    · rw [h0, Nat.shiftRight_eq_div_pow]
      omega
  | two h0 h1 ha he hc =>
    refine ⟨_, _, rfl, ?_, ?_, ?_⟩
    · rw [h0, sexpUtf8InitialByteCount, if_neg (by omega), if_pos (by omega)]
      rfl
    · rw [h0, Nat.shiftRight_eq_div_pow]
      omega
    · intro b hb
      simp only [mem_cons, not_mem_nil, or_false] at hb
      rw [hb, Nat.shiftRight_eq_div_pow]
      omega
  | three h0 h1 h2 ha hd he hc =>
    refine ⟨_, _, rfl, ?_, ?_, ?_⟩
    · rw [h0, sexpUtf8InitialByteCount, if_neg (by omega), if_neg (by omega), and_one,
        Nat.shiftRight_eq_div_pow]
      simp only [length_cons, length_nil]
      omega
    · rw [h0, Nat.shiftRight_eq_div_pow]
      omega
    · intro b hb
      simp only [mem_cons, not_mem_nil, or_false] at hb
      rcases hb with rfl | rfl <;>
        · rw [Nat.shiftRight_eq_div_pow]
          omega
  | four h0 h1 h2 h3 ha hb hd he hc =>
    refine ⟨_, _, rfl, ?_, ?_, ?_⟩
    · rw [h0, sexpUtf8InitialByteCount, if_neg (by omega), if_neg (by omega), and_one,
        Nat.shiftRight_eq_div_pow]
      simp only [length_cons, length_nil]
      omega
    · rw [h0, Nat.shiftRight_eq_div_pow]
      omega
    · intro b hb
      simp only [mem_cons, not_mem_nil, or_false] at hb
      rcases hb with rfl | rfl | rfl <;>
        · rw [Nat.shiftRight_eq_div_pow]
          omega

theorem length_encodeChar_pos (c : Char) : 0 < (encodeChar c).length := by
  obtain ⟨b0, rest, hbytes, -⟩ := encodeChar_bytes c
  rw [hbytes]
  exact Nat.succ_pos _

theorem byteAt_lead (before : List UInt8) (c : Char) (after : List UInt8) :
    ∃ byte, byteAt (before ++ (encodeChar c ++ after)) before.length = some byte ∧
      sexpUtf8InitialByteCount byte = (encodeChar c).length := by
  obtain ⟨b0, rest, hbytes, hcount, -⟩ := encodeChar_bytes c
  refine ⟨b0.toNat, byteAt_of_getElem? ?_, ?_⟩
  · rw [hbytes, getElem?_append_right le_rfl, Nat.sub_self]
    rfl
  · rw [hcount, hbytes]
    rfl

/-! ## The loops along a split -/

private theorem length_snoc (before : List Char) (c : Char) :
    (encodeString (before ++ [c])).length =
      (encodeString before).length + (encodeChar c).length := by
  simp [encodeString]

private theorem split_cons (before after : List Char) (c : Char) :
    encodeString (before ++ c :: after) =
      encodeString before ++ (encodeChar c ++ encodeString after) := by
  rw [encodeString_append, encodeString_cons]

theorem indexToCursorLoop_split (k : ℕ) (before after : List Char) :
    indexToCursorLoop (encodeString (before ++ after)) (encodeString (before ++ after)).length k
        (encodeString before).length =
      if k ≤ after.length then some (0, (encodeString (before ++ after.take k)).length)
      else some (k - after.length, (encodeString (before ++ after)).length) := by
  induction k generalizing before after with
  | zero => simp [indexToCursorLoop]
  | succ k ih =>
    cases after with
    | nil => simp [indexToCursorLoop]
    | cons c after =>
      obtain ⟨byte, hbyte, hcount⟩ :=
        byteAt_lead (encodeString before) c (encodeString after)
      have hpos := length_encodeChar_pos c
      have hlt : (encodeString before).length < (encodeString (before ++ c :: after)).length := by
        rw [split_cons, length_append, length_append]
        omega
      have hnext := ih (before ++ [c]) after
      rw [append_assoc, singleton_append] at hnext
      rw [indexToCursorLoop, if_pos hlt, split_cons, hbyte, bind_eq_bind,
        bind_some, hcount, ← length_snoc, ← split_cons, hnext]
      simp

theorem utf8LengthLoop_split (mid before after : List Char) (fuel i : ℕ)
    (hfuel : mid.length ≤ fuel) :
    utf8LengthLoop (encodeString (before ++ (mid ++ after))) (encodeString (before ++ mid)).length
      fuel (encodeString before).length i = some (i + mid.length) := by
  induction mid generalizing before fuel i with
  | nil =>
    cases fuel with
    | zero => rfl
    | succ fuel => simp [utf8LengthLoop]
  | cons c mid ih =>
    cases fuel with
    | zero => simp at hfuel
    | succ fuel =>
      obtain ⟨byte, hbyte, hcount⟩ :=
        byteAt_lead (encodeString before) c (encodeString (mid ++ after))
      have hpos := length_encodeChar_pos c
      have hlt : (encodeString before).length < (encodeString (before ++ c :: mid)).length := by
        rw [split_cons, length_append, length_append]
        omega
      have hnext := ih (before ++ [c]) fuel (i + 1) (by simpa using hfuel)
      rw [append_assoc, append_assoc, singleton_append, singleton_append] at hnext
      rw [utf8LengthLoop, if_pos hlt, cons_append, split_cons, hbyte, bind_eq_bind,
        bind_some, hcount, ← length_snoc, ← split_cons, hnext, length_cons,
        Nat.add_right_comm, Nat.add_assoc]

private theorem prev_of_bytes (str : List UInt8) (k n : ℕ) {b0 : ℕ} (hlead : byteAt str k = some b0)
    (hstart : b0 >>> 6 ≠ 2)
    (hrest : ∀ j < n, ∃ b, byteAt str (k + 1 + j) = some b ∧ b >>> 6 = 2) :
    sexpStringUtf8Prev str (k + 1 + n) = some k := by
  induction n with
  | zero => simp [sexpStringUtf8Prev, hlead, hstart]
  | succ n ih =>
    obtain ⟨b, hb, hcontinuation⟩ := hrest n (Nat.lt_succ_self n)
    have hprev := ih fun j hj => hrest j (Nat.lt_succ_of_lt hj)
    rw [← Nat.add_assoc, sexpStringUtf8Prev, hb, bind_eq_bind, bind_some,
      if_pos hcontinuation, hprev]

theorem sexpStringUtf8Prev_split (before after : List Char) (c : Char) :
    sexpStringUtf8Prev (encodeString (before ++ c :: after)) (encodeString (before ++ [c])).length =
      some (encodeString before).length := by
  obtain ⟨b0, rest, hbytes, -, hstart, hrest⟩ := encodeChar_bytes c
  have hbyte : ∀ {j : ℕ} {b : UInt8}, (encodeChar c)[j]? = some b →
      byteAt (encodeString (before ++ c :: after)) ((encodeString before).length + j) =
        some b.toNat := by
    intro j b hb
    apply byteAt_of_getElem?
    rw [split_cons, getElem?_append_right (by omega), Nat.add_sub_cancel_left,
      getElem?_append_left (List.getElem?_eq_some_iff.mp hb).1, hb]
  have hlength : (encodeChar c).length = 1 + rest.length := by rw [hbytes, length_cons, add_comm]
  rw [length_snoc, hlength, ← Nat.add_assoc]
  refine prev_of_bytes _ _ _ (hbyte (j := 0) (by rw [hbytes]; rfl)) hstart ?_
  intro j hj
  refine ⟨rest[j].toNat, ?_, hrest _ (getElem_mem hj)⟩
  rw [Nat.add_assoc, Nat.add_comm 1 j]
  refine hbyte ?_
  rw [hbytes, getElem?_cons_succ, getElem?_eq_getElem hj]

/-! ## The laws -/

/-- A call on a string; indexes and cursors are any numbers. -/
inductive StringOp where
  | length
  | indexToCursor (index : ℤ)
  | cursorToIndex (cursor : ℤ)
  | cursorNext (cursor : ℤ)
  | cursorPrev (cursor : ℤ)
  | ref (index : ℤ)

/-- The call returned an exception. -/
def Rejected {α : Type} (outcome : Option (Except String α)) : Prop :=
  ∃ message, outcome = some (.error message)

/-- The call does what it is for on the string with the characters `cs`: the right
index, cursor or character for an argument that is a position of the string, and an
exception for one that is out of range. -/
def Lawful (cs : List Char) : StringOp → Prop
  | .length => sexpStringUtf8Length (encodeString cs) (encodeString cs).length = some cs.length
  | .indexToCursor index =>
    (∀ i ≤ cs.length, index = i →
      sexpStringIndexToCursor (encodeString cs) index = some (.ok (offset cs i))) ∧
    (index < 0 ∨ cs.length < index → Rejected (sexpStringIndexToCursor (encodeString cs) index))
  | .cursorToIndex cursor =>
    (∀ i ≤ cs.length, cursor = offset cs i →
      sexpStringCursorToIndex (encodeString cs) cursor = some (.ok i)) ∧
    (cursor < 0 ∨ (encodeString cs).length < cursor →
      Rejected (sexpStringCursorToIndex (encodeString cs) cursor))
  | .cursorNext cursor =>
    (∀ i < cs.length, cursor = offset cs i →
      sexpStringCursorNext (encodeString cs) cursor = some (.ok (offset cs (i + 1)))) ∧
    (cursor < 0 ∨ (encodeString cs).length ≤ cursor →
      Rejected (sexpStringCursorNext (encodeString cs) cursor))
  | .cursorPrev cursor =>
    (∀ i < cs.length, cursor = offset cs (i + 1) →
      sexpStringCursorPrev (encodeString cs) cursor = some (.ok (offset cs i))) ∧
    (cursor ≤ 0 ∨ (encodeString cs).length < cursor →
      Rejected (sexpStringCursorPrev (encodeString cs) cursor))
  | .ref index =>
    (∀ (i : ℕ) (hi : i < cs.length), index = i →
      sexpStringUtf8IndexRef (encodeString cs) index = some (.ok (cs.get ⟨i, hi⟩).toNat)) ∧
    (index < 0 ∨ cs.length ≤ index → Rejected (sexpStringUtf8IndexRef (encodeString cs) index))

/-- The cursor that is to be moved can be moved. -/
def Movable (cs : List Char) : StringOp → Prop
  | .cursorNext cursor => 0 ≤ cursor ∧ cursor < (encodeString cs).length
  | .cursorPrev cursor => 0 < cursor ∧ cursor ≤ (encodeString cs).length
  | _ => True

variable {cs : List Char} {i : ℕ}

private theorem split_at (hi : i < cs.length) :
    cs = cs.take i ++ cs.get ⟨i, hi⟩ :: cs.drop (i + 1) := by
  rw [get_eq_getElem, getElem_cons_drop, take_append_drop]

private theorem offset_succ (hi : i < cs.length) :
    offset cs (i + 1) = (encodeString (cs.take i ++ [cs.get ⟨i, hi⟩])).length := by
  rw [offset, get_eq_getElem, take_append_getElem]

private theorem offset_lt (hi : i < cs.length) : offset cs i < (encodeString cs).length := by
  have hpos := length_encodeChar_pos (cs.get ⟨i, hi⟩)
  conv_rhs => rw [split_at hi, split_cons, length_append, length_append]
  rw [offset]
  omega

private theorem offset_le (cs : List Char) (i : ℕ) : offset cs i ≤ (encodeString cs).length := by
  conv_rhs => rw [← take_append_drop i cs, encodeString_append, length_append]
  exact Nat.le_add_right _ _

theorem length_le_encodeString (cs : List Char) : cs.length ≤ (encodeString cs).length := by
  induction cs with
  | nil => exact Nat.zero_le _
  | cons c cs ih =>
    have hpos := length_encodeChar_pos c
    rw [encodeString_cons, length_append, length_cons]
    omega

theorem sexpStringIndexToCursor_nat (cs : List Char) (k : ℕ) :
    sexpStringIndexToCursor (encodeString cs) k =
      some (if k ≤ cs.length then .ok (offset cs k)
        else .error "string-index->cursor: index out of range") := by
  have hloop := indexToCursorLoop_split k [] cs
  simp only [nil_append] at hloop
  rw [sexpStringIndexToCursor, if_pos (Int.natCast_nonneg k), Int.toNat_natCast]
  have hzero : (encodeString []).length = 0 := rfl
  rw [hzero] at hloop
  rw [hloop]
  by_cases hk : k ≤ cs.length
  · rw [if_pos hk, if_pos hk]
    rfl
  · rw [if_neg hk, if_neg hk]
    have hne : k - cs.length ≠ 0 := by omega
    simp [hne]

theorem sexpStringIndexToCursor_neg (str : List UInt8) {index : ℤ} (hneg : index < 0) :
    sexpStringIndexToCursor str index =
      some (.error "string-index->cursor: index out of range") := by
  rw [sexpStringIndexToCursor, if_neg (by omega)]
  have hne : index.natAbs ≠ 0 := by omega
  simp [hne]

theorem sexpStringUtf8Length_offset (hi : i ≤ cs.length) :
    sexpStringUtf8Length (encodeString cs) (offset cs i) = some i := by
  have hloop := utf8LengthLoop_split (cs.take i) [] (cs.drop i) (offset cs i) 0
    (length_le_encodeString (cs.take i))
  rw [nil_append, nil_append, take_append_drop, length_take,
    Nat.min_eq_left hi, Nat.zero_add] at hloop
  exact hloop

private theorem lawful_length (cs : List Char) : Lawful cs .length := by
  show sexpStringUtf8Length _ _ = _
  rw [← offset_length]
  exact sexpStringUtf8Length_offset le_rfl

private theorem lawful_indexToCursor (cs : List Char) (index : ℤ) :
    Lawful cs (.indexToCursor index) := by
  constructor
  · rintro i hi rfl
    rw [sexpStringIndexToCursor_nat, if_pos hi]
  · rintro (hneg | hhigh)
    · exact ⟨_, sexpStringIndexToCursor_neg _ hneg⟩
    · obtain ⟨k, rfl⟩ := Int.eq_ofNat_of_zero_le (show 0 ≤ index by omega)
      refine ⟨"string-index->cursor: index out of range", ?_⟩
      rw [sexpStringIndexToCursor_nat, if_neg (by omega)]

private theorem lawful_ref (cs : List Char) (index : ℤ) : Lawful cs (.ref index) := by
  constructor
  · rintro i hi rfl
    rw [sexpStringUtf8IndexRef, sexpStringIndexToCursor_nat, if_pos hi.le]
    have hlt := offset_lt hi
    have href := sexpStringUtf8Ref_shape (encodeChar_shape (cs.get ⟨i, hi⟩))
      (encodeString (cs.take i)) (encodeString (cs.drop (i + 1)))
    rw [← split_cons, ← split_at hi] at href
    simp only [bind_eq_bind, bind_some]
    rw [if_neg (by omega)]
    exact href
  · rintro (hneg | hhigh)
    · refine ⟨"string-index->cursor: index out of range", ?_⟩
      rw [sexpStringUtf8IndexRef, sexpStringIndexToCursor_neg _ hneg]
      rfl
    · obtain ⟨k, rfl⟩ := Int.eq_ofNat_of_zero_le (show 0 ≤ index by omega)
      by_cases hk : k ≤ cs.length
      · obtain rfl : k = cs.length := by omega
        refine ⟨"string-ref: index out of range", ?_⟩
        rw [sexpStringUtf8IndexRef, sexpStringIndexToCursor_nat, if_pos le_rfl, offset_length]
        simp
      · refine ⟨"string-index->cursor: index out of range", ?_⟩
        rw [sexpStringUtf8IndexRef, sexpStringIndexToCursor_nat, if_neg hk]
        rfl

private theorem lawful_cursorToIndex (cs : List Char) (cursor : ℤ) :
    Lawful cs (.cursorToIndex cursor) := by
  constructor
  · rintro i hi rfl
    have hle := offset_le cs i
    rw [sexpStringCursorToIndex, if_neg (by omega), Int.toNat_natCast,
      sexpStringUtf8Length_offset hi]
    rfl
  · intro hout
    exact ⟨_, if_pos (by omega)⟩

private theorem lawful_cursorNext_iff (cs : List Char) (cursor : ℤ) :
    Lawful cs (.cursorNext cursor) ↔ Movable cs (.cursorNext cursor) := by
  constructor
  · rintro ⟨-, hreject⟩
    by_contra hout
    have hrange : cursor < 0 ∨ (encodeString cs).length ≤ cursor := by
      simp only [Movable, not_and, not_lt] at hout
      omega
    obtain ⟨message, hmessage⟩ := hreject hrange
    unfold sexpStringCursorNext at hmessage
    split at hmessage
    · simp at hmessage
    · obtain ⟨value, -, hvalue⟩ := map_eq_some_iff.mp hmessage
      simp at hvalue
  · rintro ⟨hlow, hhigh⟩
    refine ⟨?_, fun hout => absurd hout (by omega)⟩
    rintro i hi rfl
    obtain ⟨byte, hbyte, hcount⟩ := byteAt_lead (encodeString (cs.take i)) (cs.get ⟨i, hi⟩)
      (encodeString (cs.drop (i + 1)))
    rw [← split_cons, ← split_at hi] at hbyte
    rw [sexpStringCursorNext, if_neg (by omega), Int.toNat_natCast, offset, hbyte, offset_succ hi,
      length_snoc, map_some, hcount]
    rfl

private theorem lawful_cursorPrev_iff (cs : List Char) (cursor : ℤ) :
    Lawful cs (.cursorPrev cursor) ↔ Movable cs (.cursorPrev cursor) := by
  constructor
  · rintro ⟨-, hreject⟩
    by_contra hout
    have hrange : cursor ≤ 0 ∨ (encodeString cs).length < cursor := by
      simp only [Movable, not_and, not_le] at hout
      omega
    obtain ⟨message, hmessage⟩ := hreject hrange
    unfold sexpStringCursorPrev at hmessage
    split at hmessage
    · simp at hmessage
    · obtain ⟨value, -, hvalue⟩ := map_eq_some_iff.mp hmessage
      simp at hvalue
  · rintro ⟨hlow, hhigh⟩
    refine ⟨?_, fun hout => absurd hout (by omega)⟩
    rintro i hi rfl
    have hprev := sexpStringUtf8Prev_split (cs.take i) (cs.drop (i + 1)) (cs.get ⟨i, hi⟩)
    rw [← split_at hi, ← offset_succ hi] at hprev
    rw [sexpStringCursorPrev, if_neg (by omega), Int.toNat_natCast, hprev]
    rfl

/-- The calls on strings are lawful except where a cursor is moved that is out of
range. -/
theorem stringOp_lawful_iff (cs : List Char) (op : StringOp) : Lawful cs op ↔ Movable cs op := by
  cases op with
  | length => exact iff_of_true (lawful_length cs) trivial
  | indexToCursor index => exact iff_of_true (lawful_indexToCursor cs index) trivial
  | cursorToIndex cursor => exact iff_of_true (lawful_cursorToIndex cs cursor) trivial
  | cursorNext cursor => exact lawful_cursorNext_iff cs cursor
  | cursorPrev cursor => exact lawful_cursorPrev_iff cs cursor
  | ref index => exact iff_of_true (lawful_ref cs index) trivial

/-- At the end of a string of one character a cursor moves on behind the zero byte. -/
theorem sexpStringCursorNext_end :
    sexpStringCursorNext (encodeString ['a']) 1 = some (.ok 2) ∧ ¬ Lawful ['a'] (.cursorNext 1) := by
  refine ⟨by decide, ?_⟩
  rintro ⟨-, hreject⟩
  obtain ⟨message, hmessage⟩ := hreject (.inr (by decide))
  have hnext : sexpStringCursorNext (encodeString ['a']) 1 = some (.ok 2) := by decide
  rw [hnext] at hmessage
  simp at hmessage

end ChibiScheme
