import ChibiScheme.Text.Utf16

/-!
# `string-set!`

A string is a part of a bytes object.  Where the encoding of the new character is longer or
shorter than the old one, the string gets a bytes object of its own that starts with the first
character, but it keeps its offset.
-/

namespace ChibiScheme

open List Option Utf16

/-! ## The code -/

/-- A string: its bytes and the part of them it shows. -/
structure Str where
  bytes : List UInt8
  offset : ℕ
  size : ℕ
  immutablep : Bool
  copyOnWritep : Bool

/-- `sexp_string_data`, as far as the bytes object goes. -/
def Str.data (str : Str) : List UInt8 := str.bytes.drop str.offset

section Code

variable (fresh : ℕ → UInt8)

/-- The bytes object for a string with a new length and the position of the character in it; the
byte behind the string goes where the zero byte behind the object stands. -/
def reallocate (str : Str) (i p len : ℤ) (oldLen newLen : ℕ) : Option (List UInt8 × ℤ) :=
  match sexpMakeBytes fresh len with
  | .error _ => some (str.bytes, p)
  | .ok b =>
    if i < 0 then none
    else do
      let b ← storeBytes b 0 (str.data.take i.toNat)
      let b ← storeBytes b (i.toNat + newLen)
        ((str.bytes.drop (p.toNat + oldLen)).take (len - i - newLen).toNat)
      pure (b, i)

/-- `sexp_string_utf8_set`; positions and lengths are C `int`s. -/
def sexpStringUtf8Set (str : Str) (index c : ℕ) : Option Str := do
  let i := cInt index
  let p := str.offset + i
  let byte ← if p < 0 then none else byteAt str.bytes p.toNat
  let oldLen := sexpUtf8InitialByteCount byte
  let newLen := sexpUtf8CharByteCount c
  if str.copyOnWritep ∨ oldLen ≠ newLen then
    let len := cInt (str.size + newLen - oldLen)
    let (bytes, p) ← reallocate fresh str i p len oldLen newLen
    let bytes ← storeBytes bytes p.toNat (sexpUtf8EncodeChar newLen c)
    pure { str with bytes, size := str.size + newLen - oldLen, copyOnWritep := false }
  else
    let bytes ← storeBytes str.bytes p.toNat (sexpUtf8EncodeChar newLen c)
    pure { str with bytes }

/-- `sexp_string_utf8_index_set` -/
def sexpStringUtf8IndexSet (str : Str) (i : ℤ) (ch : ℕ) : Option (Except String Str) := do
  if str.immutablep then pure (.error "string-set!: immutable string")
  else match ← sexpStringIndexToCursor (str.data.take str.size) i with
    | .error message => pure (.error message)
    | .ok off =>
      if off ≥ str.size then pure (.error "string-set!: index out of range")
      else (sexpStringUtf8Set fresh str off ch).map .ok

end Code

/-! ## What a string holds -/

/-- The bytes it shows. -/
def Str.text (str : Str) : Option (List UInt8) :=
  if str.offset + str.size ≤ str.bytes.length then some (str.data.take str.size) else none

theorem Str.text_of_split {str : Str} {front w : List UInt8} (back : List UInt8)
    (hbytes : str.bytes = front ++ (w ++ back)) (hoffset : str.offset = front.length)
    (hsize : str.size = w.length) : str.text = some w := by
  rw [Str.text, Str.data, hbytes, hoffset, hsize, if_pos, drop_left, take_left]
  simp only [length_append]
  omega

theorem Str.split_of_text {str : Str} {w : List UInt8} (htext : str.text = some w) :
    str.offset + str.size ≤ str.bytes.length ∧ str.data.take str.size = w ∧
      ∃ front back, str.bytes = front ++ (w ++ back) ∧ str.offset = front.length ∧
        str.size = w.length := by
  rw [Str.text] at htext
  split at htext
  · rename_i hle
    have hw := Option.some.inj htext
    refine ⟨hle, hw, str.bytes.take str.offset, str.data.drop str.size, ?_, ?_, ?_⟩
    · rw [← hw, take_append_drop, Str.data, take_append_drop]
    · rw [length_take]
      omega
    · rw [← hw, length_take, Str.data, length_drop]
      omega
  · exact absurd htext (by simp)

/-- A new bytes object is made. -/
def Str.Reallocates (str : Str) (old c : Char) : Prop :=
  str.copyOnWritep = true ∨ (encodeChar old).length ≠ (encodeChar c).length

instance (str : Str) (old c : Char) : Decidable (str.Reallocates old c) :=
  inferInstanceAs (Decidable (_ ∨ _))

section Set

variable {fresh : ℕ → UInt8} {str : Str} {front back first rest : List UInt8} {old c : Char}

theorem length_encodeChar : (encodeChar c).length = sexpUtf8CharByteCount c.toNat := by
  unfold encodeChar sexpUtf8CharByteCount
  split_ifs <;> rfl

theorem reallocate_split (fresh : ℕ → UInt8) {bytes : List UInt8} {p : ℤ}
    (n : ℕ) {len : ℕ} (hbytes : str.bytes = front ++ (first ++ (bytes ++ (rest ++ back))))
    (hoffset : str.offset = front.length) (hp : p.toNat = front.length + first.length)
    (hlen : len = first.length + (n + rest.length)) :
    ∃ room : List UInt8, room.length = n ∧
      reallocate fresh str first.length p len bytes.length n =
        some (first ++ (room ++ rest), (first.length : ℤ)) := by
  have hfirst : str.data.take first.length = first := by
    rw [Str.data, hbytes, hoffset, drop_left, take_left]
  have hrest : (str.bytes.drop (front.length + first.length + bytes.length)).take rest.length =
      rest := by
    rw [hbytes, ← drop_drop, ← drop_drop, drop_left, drop_left, drop_left, take_left]
  obtain ⟨b, hmake, hlength⟩ : ∃ b, sexpMakeBytes fresh len = .ok b ∧ b.length = len := by
    refine ⟨_, by rw [sexpMakeBytes, if_neg (Int.natCast_nonneg _).not_gt], ?_⟩
    rw [length_map, length_range, Int.toNat_natCast]
  have hcopy : storeBytes b 0 first = some (first ++ b.drop first.length) :=
    @storeBytes_next first 0 [] b rfl (by omega)
  have hroom : ((b.drop first.length).take n).length = n := by
    rw [length_take, length_drop]
    omega
  have hcopy' := @storeBytes_next rest (first.length + n) (first ++ (b.drop first.length).take n)
    ((b.drop first.length).drop n) (by rw [length_append, hroom])
    (by rw [length_drop, length_drop]; omega)
  have hend : b.drop (first.length + (n + rest.length)) = [] :=
    drop_eq_nil_of_le (hlength.trans hlen).le
  rw [append_assoc, take_append_drop, drop_drop, drop_drop, hend, append_nil] at hcopy'
  have hcount : (len - first.length - n : ℤ).toNat = rest.length := by omega
  refine ⟨(b.drop first.length).take n, hroom, ?_⟩
  simp only [reallocate, hmake, Int.toNat_natCast, hfirst, hp, hcount, hrest, hcopy, bind_eq_bind,
    bind_some, hcopy']
  simp

theorem sexpStringUtf8Set_text (fresh : ℕ → UInt8)
    (hbytes : str.bytes = front ++ (first ++ (encodeChar old ++ (rest ++ back))))
    (hoffset : str.offset = front.length)
    (hsize : str.size = first.length + ((encodeChar old).length + rest.length))
    (hint : first.length < 2 ^ 31)
    (hlen : str.Reallocates old c →
      first.length + ((encodeChar c).length + rest.length) < 2 ^ 31) :
    ∃ str', sexpStringUtf8Set fresh str first.length c.toNat = some str' ∧
      (str'.text = some (first ++ (encodeChar c ++ rest)) ↔
        str.offset = 0 ∨ ¬ str.Reallocates old c) := by
  obtain ⟨byte, hbyte, hcount⟩ := byteAt_lead (front ++ first) old (rest ++ back)
  rw [append_assoc, ← hbytes, length_append] at hbyte
  have hp : ((front.length : ℤ) + first.length).toNat = front.length + first.length := by omega
  have hnot : ¬ ((front.length : ℤ) + first.length < 0) := by omega
  have hencode : sexpUtf8EncodeChar (encodeChar c).length c.toNat = encodeChar c := by
    rw [length_encodeChar, encodeChar]
  simp only [sexpStringUtf8Set, cInt_of_lt hint, hoffset, hp, if_neg hnot, hbyte, bind_eq_bind,
    bind_some, hcount, ← length_encodeChar, hencode]
  by_cases hnew : str.Reallocates old c
  · obtain ⟨room, hroom, hcopy⟩ := reallocate_split fresh (encodeChar c).length hbytes hoffset hp rfl
    have hstore := @storeBytes_split (encodeChar c) _ first room rest rfl hroom
    have hsum : str.size + (encodeChar c).length - (encodeChar old).length =
        first.length + ((encodeChar c).length + rest.length) := by omega
    rw [if_pos (show _ ∨ _ from hnew), hsum, cInt_of_lt (hlen hnew), hcopy, bind_some]
    simp only [Int.toNat_natCast, hstore, bind_some]
    refine ⟨_, rfl, ?_⟩
    rw [or_iff_left (not_not.mpr hnew)]
    constructor
    · intro htext
      have hle := (Str.split_of_text htext).1
      simp only [length_append] at hle
      omega
    · intro hzero
      simp [Str.text, Str.data, hzero]
  · have hsame : (encodeChar old).length = (encodeChar c).length :=
      not_not.mp fun hne => hnew (.inr hne)
    have hstore := @storeBytes_split _ _ (front ++ first) _ (rest ++ back) length_append.symm hsame
    simp only [append_assoc] at hstore
    rw [if_neg (show ¬ (_ ∨ _) from hnew), hbytes, hstore]
    refine ⟨_, rfl, iff_of_true (Str.text_of_split back ?_ rfl ?_) (.inr hnew)⟩
    · simp only [append_assoc]
    · simp only [length_append, hsize, hsame]

end Set

/-! ## When the string is right -/

section Result

variable (fresh : ℕ → UInt8) (str : Str) (cs : List Char) (i : ℕ) (c : Char)

/-- The string has the characters `cs` but for the new one. -/
def StringSets : Prop :=
  ∃ str', sexpStringUtf8IndexSet fresh str i c.toNat = some (.ok str') ∧
    str'.text = some (encodeString (cs.set i c))

/-- The position of the character and the length of a new bytes object are C `int`s. -/
def FitsInt (old : Char) : Prop :=
  offset cs i < 2 ^ 31 ∧
    (str.Reallocates old c → (encodeString (cs.set i c)).length < 2 ^ 31)

/-- The string may be changed, and a string that gets a new bytes object starts at its first
byte. -/
def SetSafe (old : Char) : Prop :=
  str.immutablep = false ∧ (str.offset = 0 ∨ ¬ str.Reallocates old c)

/-- Where the positions fit, the string is right if and only if the offset does not get lost. -/
theorem stringSet_iff (htext : str.text = some (encodeString cs)) (hi : i < cs.length) :
    (FitsInt str cs i c (cs.get ⟨i, hi⟩) ∧ SetSafe str c (cs.get ⟨i, hi⟩) →
      StringSets fresh str cs i c) ∧
      (FitsInt str cs i c (cs.get ⟨i, hi⟩) → StringSets fresh str cs i c →
        SetSafe str c (cs.get ⟨i, hi⟩)) := by
  obtain ⟨before, old, after, rfl, rfl⟩ : ∃ before old after,
      cs = before ++ old :: after ∧ i = before.length :=
    ⟨cs.take i, cs.get ⟨i, hi⟩, cs.drop (i + 1), by simp, (length_take_of_le hi.le).symm⟩
  have hget : (before ++ old :: after).get ⟨before.length, hi⟩ = old := by simp
  have hset : (before ++ old :: after).set before.length c = before ++ c :: after := by simp
  have hoffset : offset (before ++ old :: after) before.length = (encodeString before).length := by
    simp [offset]
  have hcursor := sexpStringIndexToCursor_nat (before ++ old :: after) before.length
  obtain ⟨hle, hdata, front, back, hbytes, hfront, hsize⟩ := Str.split_of_text htext
  rw [hget, FitsInt, StringSets, SetSafe, hset, hoffset, sexpStringUtf8IndexSet, hdata, hcursor,
    if_pos hi.le, hoffset]
  simp only [encodeString_append, encodeString_cons, length_append, append_assoc] at hbytes hsize ⊢
  have hpos := length_encodeChar_pos old
  have hlt : ¬ (encodeString before).length ≥ str.size := by omega
  suffices hcode : (encodeString before).length < 2 ^ 31 ∧ (str.Reallocates old c →
      (encodeString before).length + ((encodeChar c).length + (encodeString after).length) < 2 ^ 31)
      → (_ ↔ _) from ⟨fun h => (hcode h.1).mpr h.2, fun hfits => (hcode hfits).mp⟩
  rintro ⟨hint, hlen⟩
  obtain ⟨str', hrun, hiff⟩ := sexpStringUtf8Set_text fresh hbytes hfront hsize hint hlen
  rw [← hiff]
  cases str.immutablep with
  | true => simp
  | false => simp [hlt, hrun]

end Result

/-- `(string-set! "abc" 1 #\x3bb)` on a string that starts at its first byte. -/
theorem stringSet_lambda :
    StringSets (fun _ => 0) ⟨[97, 98, 99], 0, 3, false, false⟩ ['a', 'b', 'c'] 1
      (Char.ofNat 0x3bb) := by
  have hset := stringSet_iff (fun _ => 0) ⟨[97, 98, 99], 0, 3, false, false⟩ ['a', 'b', 'c'] 1
    (Char.ofNat 0x3bb) (by decide) (by decide)
  exact hset.1 ⟨⟨by decide, fun _ => by decide⟩, rfl, .inl rfl⟩

/-- `(string-set! (utf8->string! #u8(97 98 99) 1) 0 #\x3bb)` loses the offset. -/
theorem stringSet_offset :
    ¬ StringSets (fun _ => 0) ⟨[97, 98, 99], 1, 2, false, false⟩ ['b', 'c'] 0
      (Char.ofNat 0x3bb) := by
  rintro ⟨str', hrun, htext⟩
  have hcode : sexpStringUtf8IndexSet (fun _ => 0) ⟨[97, 98, 99], 1, 2, false, false⟩ 0 0x3bb =
      some (.ok ⟨[206, 187, 99], 1, 3, false, false⟩) := rfl
  obtain rfl := Except.ok.inj (Option.some.inj (hcode.symm.trans hrun))
  exact absurd htext (by decide)

end ChibiScheme
