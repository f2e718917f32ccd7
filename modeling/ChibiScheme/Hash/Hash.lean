import ChibiScheme.Hash.EqualBound
import ChibiScheme.Numeric.Integer

/-!
# The default hash function

`hash_one` goes through an object down to a fixed depth.  It reads every digit of a bignum, leading
zeros included, which `equal?` passes over.
-/

namespace ChibiScheme.Hash

open List

/-- `FNV_PRIME` -/
def fnvPrime : UInt64 := 16777619

/-- `FNV_OFFSET_BASIS` -/
def fnvOffsetBasis : UInt64 := 2166136261

/-- `HASH_DEPTH` -/
def hashDepth : ℕ := 5

/-- A `char` as an operand of a 64-bit operation. -/
def charWord (byte : UInt8) : UInt64 :=
  if byte < 128 then byte.toUInt64 else byte.toUInt64 ||| 0xffffffffffffff00

/-- `sexp_bytesp(obj) || sexp_uvectorp(obj) || sexp_bignump(obj)` -/
def Obj.isRaw : Obj → Bool
  | .bytes _ => true
  | .bignum _ => true
  | _ => false

/-- The loop over the raw bytes of an object. -/
def hashBytes (acc : UInt64) (bytes : List UInt8) : UInt64 :=
  bytes.foldl (fun acc byte => (acc * fnvPrime) ^^^ charWord byte) acc

/-- The loop over the slots of an object: all but the last one are hashed on their own. -/
def hashSlots (hash : UInt64 → Val → UInt64) : UInt64 → List Val → UInt64
  | acc, [] => acc
  | acc, [slot] => hash acc slot
  | acc, slot :: slots =>
    hashSlots hash ((acc * fnvPrime) ^^^ hash fnvOffsetBasis slot) slots

/-- `hash_one` without the bound, from the given accumulator. -/
def hashLoop (mem : Memory) : ℕ → UInt64 → Val → UInt64
  | _, acc, .imm word => acc ^^^ word
  | 0, acc, .ptr address => acc ^^^ (mem.obj address).tag
  | depth + 1, acc, .ptr address =>
    let acc := if (mem.obj address).isRaw then hashBytes acc (mem.obj address).right else acc
    hashSlots (fun acc slot => hashLoop mem depth acc slot) acc (mem.obj address).slots

/-- `hash_one` of an object; no bound is 0. -/
def hashOne (mem : Memory) (obj : Val) (bound : UInt64) : UInt64 :=
  let acc := hashLoop mem hashDepth fnvOffsetBasis obj
  if bound = 0 then acc else acc % bound

/-- The object by its layout. -/
def Obj.layout : Obj → Equal.Obj
  | .bignum value => .bignum value
  | obj => .other obj.tag.toNat obj.left obj.slots obj.right

theorem Obj.slots_length_eq {o o' : Obj} (htag : o.tag = o'.tag) (hleft : o.left = o'.left)
    (hlength : ∀ data, o = .vector data ∨ o' = .vector data → data.length < 2 ^ 62) :
    o.slots.length = o'.slots.length := by
  cases o <;> cases o' <;> try first | rfl | cases htag
  case vector.vector data data' =>
    have hwords := congrArg UInt64.toNat (wordBytes_inj hleft)
    have hdata := hlength data (.inl rfl)
    have hdata' := hlength data' (.inr rfl)
    rw [Nat.toUInt64_eq, Nat.toUInt64_eq, UInt64.toNat_ofNat', UInt64.toNat_ofNat'] at hwords
    show data.length = data'.length
    omega

theorem Obj.layout_eq_other {o : Obj} {tag : ℕ} {left right : List UInt8} {slots : List Val}
    (ho : o.layout = .other tag left slots right) :
    o.tag.toNat = tag ∧ o.left = left ∧ o.slots = slots ∧ o.right = right := by
  cases o <;> cases ho <;> exact ⟨rfl, rfl, rfl, rfl⟩

theorem Obj.layout_eq_bignum {o : Obj} {m : Bignum} (ho : o.layout = .bignum m) :
    o = .bignum m := by
  cases o <;> cases ho
  rfl

theorem Obj.layout_ne_flonum {o : Obj} (f : UInt64) : o.layout ≠ .flonum f := by
  intro ho
  cases o <;> cases ho

/-- The memory as `equal?` sees it. -/
def Memory.objects (mem : Memory) : Equal.Memory where
  obj x := (mem.obj x).layout
  layout {x y} _ _ _ _ _ _ hx hy := by
    obtain ⟨htag, hleft, rfl, rfl⟩ := Obj.layout_eq_other hx
    obtain ⟨htag', hleft', rfl, rfl⟩ := Obj.layout_eq_other hy
    have htag := UInt64.toNat_inj.mp (htag.trans htag'.symm)
    refine ⟨Obj.slots_length_eq htag (hleft.trans hleft'.symm) ?_, fun hnil => ?_⟩
    · rintro data (hdata | hdata)
      · exact mem.length_lt x data hdata
      · exact mem.length_lt y data hdata
    · generalize mem.obj x = o at htag hnil
      generalize mem.obj y = o' at htag
      cases o <;> cases o' <;> first
        | rfl
        | (simp [Obj.right, wordBytes] at hnil; done)
        | cases htag

/-- `SEXP_DEFAULT_EQUAL_DEPTH` -/
def defaultEqualDepth : ℤ := 10000

/-- `SEXP_DEFAULT_EQUAL_BOUND` -/
def defaultEqualBound : ℤ := 100000000

/-- `sexp_equalp_op`, before the result becomes a boolean. -/
def sexpEqualpOp (mem : Memory) (a b : Val) : Option Equal.Outcome :=
  Equal.equalpBound mem.objects a b defaultEqualDepth defaultEqualBound

/-- `equal?` -/
def sexpEqualp (mem : Memory) (a b : Val) : Bool :=
  ((sexpEqualpOp mem a b).bind (·.result)).isSome

/-- The number of digits of a bignum, leading zeros included. -/
def Obj.digits : Obj → Option ℕ
  | .bignum value => some value.data.length
  | _ => none

/-- The bignums at the same places in `a` and `b`, down to the given depth, have the same number of
digits. -/
def sameDigits (mem : Memory) : ℕ → Val → Val → Bool
  | depth + 1, .ptr x, .ptr y =>
    decide ((mem.obj x).digits = (mem.obj y).digits) &&
      ((mem.obj x).slots.zip (mem.obj y).slots).all fun slot => sameDigits mem depth slot.1 slot.2
  | _, _, _ => true

/-- The raw bytes that `hash_one` reads are the same, up to leading zeros of a bignum. -/
def Obj.sameRaw : Obj → Obj → Bool
  | .bytes data, .bytes data' => decide (data = data')
  | .bignum m, .bignum n => decide (m.sign = n.sign ∧ m.magnitude = n.magnitude)
  | o, o' => !o.isRaw && !o'.isRaw

/-- Down to the given depth `a` and `b` do not differ in anything that `hash_one` reads: immediate
objects, numbers of slots, byte vectors and the values of bignums; at the depth itself, types. -/
def alike (mem : Memory) : ℕ → Val → Val → Bool
  | _, .imm word, .imm word' => decide (word = word')
  | 0, .ptr x, .ptr y => decide ((mem.obj x).tag = (mem.obj y).tag)
  | depth + 1, .ptr x, .ptr y =>
    (mem.obj x).sameRaw (mem.obj y) &&
      decide ((mem.obj x).slots.length = (mem.obj y).slots.length) &&
      ((mem.obj x).slots.zip (mem.obj y).slots).all fun slot => alike mem depth slot.1 slot.2
  | _, _, _ => false

variable {mem : Memory} {a b : Val} {depth : ℕ}

/-! ## Bignums -/

theorem sign_data_of_sexpBignumCompare {m n : Bignum} (hcompare : sexpBignumCompare m n = 0) :
    m.sign = n.sign ∧ m.magnitude = n.magnitude := by
  unfold sexpBignumCompare at hcompare
  by_cases hsign : m.sign = n.sign
  · rw [if_neg (not_not.mpr hsign)] at hcompare
    have habs : sexpBignumCompareAbs m n = 0 := by
      simp only at hcompare
      split at hcompare
      · exact neg_eq_zero.mp hcompare
      · exact hcompare
    have hdifference := sign_sexpBignumCompareAbs m n
    rw [habs, Int.sign_zero] at hdifference
    have hzero := Int.sign_eq_zero_iff_zero.mp hdifference.symm
    exact ⟨hsign, by omega⟩
  · rw [if_pos hsign] at hcompare
    cases hm : m.sign <;> rw [hm] at hcompare <;> cases hcompare

/-! ## Equal objects hash equally -/

theorem hashSlots_congr {hash : UInt64 → Val → UInt64} {slots slots' : List Val} {acc : UInt64}
    (hlength : slots.length = slots'.length)
    (hsame : ∀ slot ∈ slots.zip slots', ∀ acc, hash acc slot.1 = hash acc slot.2) :
    hashSlots hash acc slots = hashSlots hash acc slots' := by
  induction slots generalizing slots' acc with
  | nil =>
    cases slots' with
    | nil => rfl
    | cons slot' slots' => cases hlength
  | cons slot slots ih =>
    cases slots' with
    | nil => cases hlength
    | cons slot' slots' =>
      have hfirst : ∀ acc, hash acc slot = hash acc slot' :=
        hsame (slot, slot') (by simp)
      have hlength' : slots.length = slots'.length := by simpa using hlength
      have hrest : ∀ acc, hashSlots hash acc slots = hashSlots hash acc slots' := fun acc =>
        ih hlength' fun pair hpair => hsame pair (by simp [hpair])
      cases slots with
      | nil =>
        cases slots' with
        | nil => exact hfirst acc
        | cons slot' slots' => cases hlength'
      | cons second slots =>
        cases slots' with
        | nil => cases hlength'
        | cons second' slots' =>
          show hashSlots hash ((acc * fnvPrime) ^^^ hash fnvOffsetBasis slot) _ =
            hashSlots hash ((acc * fnvPrime) ^^^ hash fnvOffsetBasis slot') _
          rw [hfirst, hrest]

theorem Obj.raw_eq {o o' : Obj} (hraw : o.sameRaw o') (hdigits : o.digits = o'.digits) :
    o.isRaw = o'.isRaw ∧ (o.isRaw = true → o.right = o'.right) := by
  cases o <;> cases o' <;> simp [sameRaw, isRaw] at hraw ⊢
  case bytes.bytes => rw [hraw]
  case bignum.bignum m n =>
    have hdata : m.data = n.data := Limbs.value_inj (Option.some.inj hdigits) hraw.2
    simp only [right, hraw.1, hdata]

/-- Objects that are alike down to a depth hash equally. -/
theorem hashLoop_eq (hdigits : sameDigits mem depth a b) (halike : alike mem depth a b)
    (acc : UInt64) : hashLoop mem depth acc a = hashLoop mem depth acc b := by
  induction depth generalizing a b acc with
  | zero =>
    cases a <;> cases b <;> simp only [alike, decide_eq_true_eq, Bool.false_eq_true] at halike
    · simp only [hashLoop, halike]
    · simp only [hashLoop, halike]
  | succ depth ih =>
    cases a <;> cases b <;> simp only [alike, decide_eq_true_eq, Bool.false_eq_true] at halike
    case imm.imm => simp only [hashLoop, halike]
    case ptr.ptr x y =>
      simp only [Bool.and_eq_true, decide_eq_true_eq, all_eq_true] at halike
      simp only [sameDigits, Bool.and_eq_true, decide_eq_true_eq, all_eq_true] at hdigits
      obtain ⟨⟨hraw, hlength⟩, hslots⟩ := halike
      obtain ⟨hraw, hright⟩ := Obj.raw_eq hraw hdigits.1
      have hhash : ∀ acc, hashSlots (hashLoop mem depth) acc (mem.obj x).slots =
          hashSlots (hashLoop mem depth) acc (mem.obj y).slots := fun acc =>
        hashSlots_congr hlength fun slot hslot acc =>
          ih (hdigits.2 slot hslot) (hslots slot hslot) acc
      simp only [hashLoop]
      rw [hraw]
      split
      · rename_i htrue
        rw [hright (hraw.trans htrue)]
        exact hhash _
      · exact hhash acc

/-! ## What `equal?` says -/

theorem alike_self (mem : Memory) (depth : ℕ) (a : Val) : alike mem depth a a := by
  induction depth generalizing a with
  | zero => cases a <;> simp [alike]
  | succ depth ih =>
    cases a with
    | imm word => simp [alike]
    | ptr x =>
      have hraw : (mem.obj x).sameRaw (mem.obj x) := by
        cases mem.obj x <;> simp [Obj.sameRaw, Obj.isRaw]
      simp only [alike, hraw, decide_true, Bool.and_true, Bool.true_and, all_eq_true]
      intro slot hslot
      obtain ⟨i, hi, rfl⟩ := List.mem_iff_getElem.mp hslot
      rw [List.getElem_zip]
      exact ih _

theorem Obj.sameRaw_of_layout {o o' : Obj} (htag : o.tag = o'.tag) (hright : o.right = o'.right)
    (hdigits : o.digits = none) : o.sameRaw o' := by
  cases o <;> cases o' <;> try first | rfl | (cases htag; done) | (cases hdigits; done)
  case bytes.bytes data data' =>
    have hlength := congrArg List.length hright
    have happend := (append_inj hright (by simpa [Obj.right, wordBytes] using hlength)).1
    simpa [Obj.sameRaw] using (append_inj happend (by simp [wordBytes])).2

/-- Structurally equal data are alike down to every depth. -/
theorem alike_of_sameData (hsame : Equal.SameData mem.objects a b) (depth : ℕ) :
    alike mem depth a b := by
  induction hsame generalizing depth with
  | refl a => exact alike_self mem depth a
  | @bignum x y m n hx hy hcompare =>
    obtain ⟨hsign, hmagnitude⟩ := sign_data_of_sexpBignumCompare hcompare
    have hx := Obj.layout_eq_bignum hx
    have hy := Obj.layout_eq_bignum hy
    cases depth with
    | zero => simp [alike, hx, hy, Obj.tag]
    | succ depth => simp [alike, hx, hy, Obj.sameRaw, Obj.slots, hsign, hmagnitude]
  | @flonum x y f hx hy =>
    exact absurd hx (Obj.layout_ne_flonum f)
  | @other x y tag left right slots slots' hx hy hslots ih =>
    obtain ⟨htag, -, rfl, hright⟩ := Obj.layout_eq_other hx
    obtain ⟨htag', -, rfl, hright'⟩ := Obj.layout_eq_other hy
    have htag := UInt64.toNat_inj.mp (htag.trans htag'.symm)
    have hdigits : (mem.obj x).digits = none := by
      cases hobj : mem.obj x <;> first | rfl | (simp [Memory.objects, hobj, Obj.layout] at hx)
    cases depth with
    | zero => simpa [alike] using htag
    | succ depth =>
      simp only [alike, Bool.and_eq_true, decide_eq_true_eq, all_eq_true]
      exact ⟨⟨Obj.sameRaw_of_layout htag (hright.trans hright'.symm) hdigits,
        (mem.objects.layout hx hy).1⟩, fun slot hslot => ih slot hslot depth⟩

theorem slotsBounded_objects (mem : Memory) : Equal.SlotsBounded mem.objects (2 ^ 62) := by
  intro x tag left slots right hx
  obtain ⟨-, -, rfl, -⟩ := Obj.layout_eq_other hx
  cases hobj : mem.obj x with
  | vector data => exact (mem.length_lt x data hobj).le
  | _ => simp [Obj.slots]

/-- `equal?` has a result.  Objects that are alike down to the depth of `hash_one` and whose bignums
there have the same numbers of digits have the same hash.  Those that `equal?` has found to be equal
without reaching a limit are alike. -/
theorem hashOne_eq_of_equalp (mem : Memory) (a b : Val) :
    (sexpEqualpOp mem a b).isSome ∧
      (alike mem hashDepth a b → sameDigits mem hashDepth a b →
        ∀ bound, hashOne mem a bound = hashOne mem b bound) ∧
      ((∀ x m, mem.obj x = .bignum m → m.FitsInt) → sexpEqualp mem a b →
        (∀ out ∈ sexpEqualpOp mem a b, out.cut = false) → alike mem hashDepth a b) := by
  obtain ⟨out, hrun, -, -, hsame⟩ := Equal.equalpBound_spec mem.objects (2 ^ 62)
    (slotsBounded_objects mem) a b defaultEqualDepth defaultEqualBound
  have hrun : sexpEqualpOp mem a b = some out := hrun
  refine ⟨by rw [hrun]; rfl, fun halike hdigits bound => ?_, fun _ hequal hcut => ?_⟩
  · unfold hashOne
    rw [hashLoop_eq hdigits halike]
  · unfold sexpEqualp at hequal
    rw [hrun] at hequal hcut
    exact alike_of_sameData ((hsame (hcut out rfl)).mp hequal) hashDepth

/-- Two lists of a big number and a byte vector, each made on its own. -/
def twoLists : Memory where
  obj
    | 0 => .pair (.ptr 2) (.ptr 4)
    | 1 => .pair (.ptr 3) (.ptr 5)
    | 2 => .bignum ⟨.neg, [7, 1]⟩
    | 3 => .bignum ⟨.neg, [7, 1]⟩
    | 4 => .pair (.ptr 6) (.imm 574)
    | 5 => .pair (.ptr 7) (.imm 574)
    | _ => .bytes [1, 2]
  length_lt x data hx := by
    split at hx <;> cases hx

theorem fitsInt_twoLists : ∀ x m, twoLists.obj x = .bignum m → m.FitsInt := by
  intro x m hx
  simp only [twoLists] at hx
  split at hx <;> cases hx <;> decide

/-- Two lists that are equal have one hash. -/
theorem hashOne_eq_twoLists : sexpEqualp twoLists (.ptr 0) (.ptr 1) = true ∧
    hashOne twoLists (.ptr 0) 23 = hashOne twoLists (.ptr 1) 23 := by
  have hequal : sexpEqualp twoLists (.ptr 0) (.ptr 1) = true := by decide
  obtain ⟨-, hhash, halike⟩ := hashOne_eq_of_equalp twoLists (.ptr 0) (.ptr 1)
  exact ⟨hequal, hhash (halike fitsInt_twoLists hequal (by decide)) (by decide) 23⟩

/-- The memory after `(- (expt 2 64) (expt 2 63))` and `(+ (expt 2 62) (expt 2 62))`. -/
def sumAndDifference : Memory where
  obj
    | 0 => .bignum ⟨.pos, [9223372036854775808, 0]⟩
    | _ => .bignum ⟨.pos, [9223372036854775808]⟩
  length_lt x data hx := by
    split at hx <;> cases hx

/-- A difference keeps a digit that has become zero: it is `equal?` to the sum, but it has another
hash. -/
theorem sumAndDifference_hash :
    subInteger (.bignum ⟨.pos, [0, 1]⟩) (.bignum ⟨.pos, [9223372036854775808]⟩) =
        .bignum ⟨.pos, [9223372036854775808, 0]⟩ ∧
      addInteger (.bignum ⟨.pos, [4611686018427387904]⟩) (.bignum ⟨.pos, [4611686018427387904]⟩) =
        .bignum ⟨.pos, [9223372036854775808]⟩ ∧
      sexpEqualp sumAndDifference (.ptr 0) (.ptr 1) = true ∧
      hashOne sumAndDifference (.ptr 0) 23 ≠ hashOne sumAndDifference (.ptr 1) 23 :=
  ⟨by decide, by decide, by decide, by decide⟩

end ChibiScheme.Hash
