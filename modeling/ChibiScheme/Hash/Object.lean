import ChibiScheme.Numeric.Bignum

/-!
# Objects in memory

Objects as `equal?` and the hash function see them: a tag, words that may point to other objects, and
bytes in front of and behind these words.
-/

namespace ChibiScheme.Hash

/-- A word: an immediate object or a pointer to another one.  A null pointer is the immediate 0. -/
inductive Val where
  | imm (word : UInt64)
  | ptr (address : ℕ)
deriving DecidableEq

/-- The types of objects that keys are made of. -/
inductive Obj where
  | pair (car cdr : Val)
  | symbol (data : List UInt8)
  | bytes (data : List UInt8)
  | string (contents : Val) (offset length : UInt64)
  | vector (data : List Val)
  | bignum (value : Bignum)
  | ratio (numerator denominator : Val)
deriving DecidableEq

/-- The memory: there is an object at every address that is used.  The length of a vector is a
fixnum. -/
structure Memory where
  obj : ℕ → Obj
  length_lt : ∀ x data, obj x = .vector data → data.length < 2 ^ 62

/-- The bytes of a word, the lowest one first. -/
def wordBytes (word : UInt64) : List UInt8 :=
  (List.range 8).map fun i => (word >>> (8 * i).toUInt64).toUInt8

theorem wordBytes_inj {word word' : UInt64} (heq : wordBytes word = wordBytes word') :
    word = word' := by
  have hbyte : ∀ i < 8, word.toNat / 2 ^ (8 * i) % 256 = word'.toNat / 2 ^ (8 * i) % 256 := by
    intro i hi
    have hget := List.map_inj_left.mp heq i (List.mem_range.mpr hi)
    have hto := congrArg UInt8.toNat hget
    have hi' : (8 * i).toUInt64.toNat % 64 = 8 * i := by
      rw [Nat.toUInt64_eq, UInt64.toNat_ofNat']
      omega
    simpa only [UInt64.toNat_toUInt8, UInt64.toNat_shiftRight, hi', Nat.shiftRight_eq_div_pow] using hto
  have hlt := word.toNat_lt
  have hlt' := word'.toNat_lt
  apply UInt64.toNat_inj.mp
  have h0 := hbyte 0 (by decide)
  have h1 := hbyte 1 (by decide)
  have h2 := hbyte 2 (by decide)
  have h3 := hbyte 3 (by decide)
  have h4 := hbyte 4 (by decide)
  have h5 := hbyte 5 (by decide)
  have h6 := hbyte 6 (by decide)
  have h7 := hbyte 7 (by decide)
  norm_num at h0 h1 h2 h3 h4 h5 h6 h7 hlt hlt'
  omega

namespace Obj

/-- The `sexp_types` of these objects. -/
def tag : Obj → UInt64
  | pair _ _ => 6
  | symbol _ => 7
  | bytes _ => 8
  | string _ _ _ => 9
  | vector _ => 10
  | bignum _ => 12
  | ratio _ _ => 13

/-- The bytes in front of the slots: `left_size` many. -/
def left : Obj → List UInt8
  | vector data => wordBytes data.length.toUInt64
  | _ => []

/-- The slots that `equal?` compares: `sexp_type_num_eq_slots_of_object` many. -/
def slots : Obj → List Val
  | pair car cdr => [car, cdr]
  | string contents _ _ => [contents]
  | vector data => data
  | ratio numerator denominator => [numerator, denominator]
  | _ => []

/-- The bytes behind the slots: `right_size` many.  A symbol and a byte vector end in a null byte;
in a bignum there are seven bytes between the sign and the length. -/
def right : Obj → List UInt8
  | symbol data => wordBytes data.length.toUInt64 ++ data ++ [0]
  | bytes data => wordBytes data.length.toUInt64 ++ data ++ [0]
  | string _ offset length => wordBytes offset ++ wordBytes length
  | bignum value =>
    (if value.sign = .neg then 255 else 1) :: List.replicate 7 0 ++
      wordBytes value.data.length.toUInt64 ++ value.data.flatMap wordBytes
  | _ => []

end Obj

/-- The loop that goes from the last slots to the first ones, up to two that differ.  Here and there
the slots are in reverse order. -/
def skipSame : List (Val × Val) → List (Val × Val)
  | [] => []
  | [slot] => [slot]
  | slot :: slots => if slot.1 = slot.2 then skipSame slots else slot :: slots

theorem mem_skipSame {slots : List (Val × Val)} {slot : Val × Val} (hslot : slot ∈ slots) :
    slot.1 = slot.2 ∨ slot ∈ skipSame slots := by
  induction slots with
  | nil => cases hslot
  | cons first slots ih =>
    cases slots with
    | nil => exact .inr hslot
    | cons second slots =>
      unfold skipSame
      split
      · rename_i heq
        rcases List.mem_cons.mp hslot with rfl | hslot
        · exact .inl heq
        · exact ih hslot
      · exact .inr hslot

end ChibiScheme.Hash
