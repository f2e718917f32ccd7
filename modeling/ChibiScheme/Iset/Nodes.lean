import Mathlib.Tactic.Ring
import Mathlib.Tactic.Linarith
import ChibiScheme.Iset.Constructors

/-!
# The integers of a node

What the operations on single nodes do to the integers that a node holds.
-/

namespace ChibiScheme.IntegerSet

/-! ## Bitmaps -/

theorem testBit_shift (n : ℕ) (count : ℤ) (i : ℕ) :
    (shift n count).testBit i = (decide (0 ≤ (i : ℤ) - count) && n.testBit ((i : ℤ) - count).toNat) := by
  unfold shift
  split
  · rename_i hcount
    rw [Nat.testBit_shiftLeft]
    have hsub : i - count.toNat = ((i : ℤ) - count).toNat := by omega
    rw [hsub]
    congr 1
    exact decide_eq_decide.mpr (by omega)
  · rename_i hcount
    rw [Nat.testBit_shiftRight]
    have hadd : (-count).toNat + i = ((i : ℤ) - count).toNat := by omega
    rw [hadd, decide_eq_true (by omega), Bool.true_and]

theorem testBit_rangeToBits {start stop : ℤ} (hle : start ≤ stop + 1) (i : ℕ) :
    (rangeToBits start stop).testBit i = decide (start + i ≤ stop) := by
  unfold rangeToBits shift
  rw [if_pos (by omega), Nat.one_shiftLeft, Nat.testBit_two_pow_sub_one]
  exact decide_eq_decide.mpr (by omega)

theorem testBit_bitClear (n : ℕ) {index : ℤ} (hindex : 0 ≤ index) (i : ℕ) :
    (bitClear n index).testBit i = (n.testBit i && !decide (i = index.toNat)) := by
  obtain ⟨k, rfl⟩ := Int.eq_ofNat_of_zero_le hindex
  have hk : ((k : ℤ)).toNat = k := Int.toNat_natCast k
  unfold bitClear isBitSet shift
  rw [hk, if_pos hindex, Nat.one_shiftLeft]
  split
  · rename_i hset
    -- the number is `2 ^ k * (2 * q + 1) + r`
    have hodd : n / 2 ^ k % 2 = 1 := by
      rwa [Nat.testBit_eq_decide_div_mod_eq, decide_eq_true_eq] at hset
    have hr := Nat.mod_lt n (Nat.two_pow_pos k)
    obtain ⟨q, hq⟩ : ∃ q, n / 2 ^ k = 2 * q + 1 := ⟨n / 2 ^ k / 2, by omega⟩
    have hn : n = 2 ^ k * (2 * q + 1) + n % 2 ^ k := by
      rw [← hq]
      exact (Nat.div_add_mod n (2 ^ k)).symm
    have hsub : n - 2 ^ k = 2 ^ k * (2 * q) + n % 2 ^ k := by
      have hsplit : 2 ^ k * (2 * q + 1) = 2 ^ k * (2 * q) + 2 ^ k := by ring
      omega
    rw [hsub]
    conv_rhs => rw [hn]
    rw [Nat.testBit_two_pow_mul_add _ hr, Nat.testBit_two_pow_mul_add _ hr]
    split
    · rename_i hlt
      simp [Nat.ne_of_lt hlt]
    · rename_i hge
      by_cases heq : i = k
      · subst heq
        simp
      · obtain ⟨j, rfl⟩ : ∃ j, i = k + (j + 1) := ⟨i - k - 1, by omega⟩
        have hsame : (2 * q + 1) / 2 = q := by omega
        simp [Nat.testBit_succ, hsame]
  · rename_i hclear
    by_cases heq : i = k
    · subst heq
      simpa using hclear
    · simp [heq]

/-! ## Nodes -/

namespace Node

/-- The node has the member. -/
def Mem (a : Node) (x : ℤ) : Prop :=
  a.start ≤ x ∧ x ≤ a.stop ∧ ∀ bits, a.bits = some bits → bits.testBit (x - a.start).toNat = true

/-- The range is not empty, and no bit lies behind it. -/
structure Ok (a : Node) : Prop where
  le : a.start ≤ a.stop
  bits : ∀ bits, a.bits = some bits → ∀ i, bits.testBit i = true → a.start + i ≤ a.stop

variable {a b : Node} {x : ℤ}

theorem mem_of_bits {start stop : ℤ} {bits : ℕ} : (⟨start, stop, some bits⟩ : Node).Mem x ↔
    start ≤ x ∧ x ≤ stop ∧ bits.testBit (x - start).toNat = true := by
  simp [Mem]

theorem mem_of_range {start stop : ℤ} : (⟨start, stop, none⟩ : Node).Mem x ↔
    start ≤ x ∧ x ≤ stop := by
  simp [Mem]

theorem Ok.mem_iff (hok : a.Ok) :
    a.Mem x ↔ a.start ≤ x ∧ a.toBits.testBit (x - a.start).toNat = true := by
  obtain ⟨start, stop, bits⟩ := a
  have hle : start ≤ stop := hok.le
  unfold toBits
  cases bits with
  | none =>
    rw [mem_of_range]
    simp only [Option.getD_none, testBit_rangeToBits (show start ≤ stop + 1 by omega),
      decide_eq_true_eq]
    omega
  | some bits =>
    rw [mem_of_bits]
    simp only [Option.getD_some]
    constructor
    · exact fun h => ⟨h.1, h.2.2⟩
    · intro h
      have hstop := hok.bits bits rfl _ h.2
      have hstop : start + ((x - start).toNat : ℤ) ≤ stop := hstop
      exact ⟨h.1, by omega, h.2⟩

theorem Ok.toBits_le (hok : a.Ok) {i : ℕ} (hi : a.toBits.testBit i = true) : a.start + i ≤ a.stop := by
  have hmem : a.Mem (a.start + i) := by
    rw [hok.mem_iff]
    exact ⟨by omega, by simpa using hi⟩
  exact hmem.2.1

end Node

open Node

variable {a b : Node} {x : ℤ}

theorem or_shift_spec (ha : a.Ok) (hb : b.Ok) {stop : ℤ} (hstart : a.start ≤ b.start)
    (hastop : a.stop ≤ stop) (hbstop : b.stop ≤ stop) :
    (⟨a.start, stop, some (a.toBits ||| shift b.toBits (b.start - a.start))⟩ : Node).Ok ∧
      ∀ x, (⟨a.start, stop, some (a.toBits ||| shift b.toBits (b.start - a.start))⟩ : Node).Mem x ↔
        a.Mem x ∨ b.Mem x := by
  have hale := ha.le
  have hbit : ∀ i : ℕ, (a.toBits ||| shift b.toBits (b.start - a.start)).testBit i = true ↔
      a.toBits.testBit i = true ∨ b.start ≤ a.start + i ∧
        b.toBits.testBit (a.start + i - b.start).toNat = true := by
    intro i
    rw [Nat.testBit_or, Bool.or_eq_true, testBit_shift, Bool.and_eq_true, decide_eq_true_eq]
    have hindex : (i : ℤ) - (b.start - a.start) = a.start + i - b.start := by ring
    rw [hindex, sub_nonneg]
  refine ⟨⟨hale.trans hastop, ?_⟩, fun x => ?_⟩
  · rintro bits ⟨⟩ i hi
    show a.start + (i : ℤ) ≤ stop
    rcases (hbit i).mp hi with hi | ⟨hpos, hi⟩
    · have h := ha.toBits_le hi
      omega
    · have h := hb.toBits_le hi
      omega
  · rw [mem_of_bits, hbit, ha.mem_iff, hb.mem_iff]
    constructor
    · rintro ⟨hlow, hhigh, hi | ⟨hpos, hi⟩⟩
      · exact .inl ⟨hlow, hi⟩
      · rw [Int.toNat_of_nonneg (by omega), add_sub_cancel] at hpos hi
        exact .inr ⟨hpos, hi⟩
    · rintro (⟨hlow, hi⟩ | ⟨hlow, hi⟩)
      · have h := ha.toBits_le hi
        exact ⟨hlow, by omega, .inl hi⟩
      · have h := hb.toBits_le hi
        refine ⟨by omega, by omega, .inr ?_⟩
        rw [Int.toNat_of_nonneg (by omega), add_sub_cancel]
        exact ⟨hlow, hi⟩

theorem mergeLeft_spec (ha : a.Ok) (hb : b.Ok) (hle : b.stop ≤ a.start) :
    (mergeLeft a b).Ok ∧ ∀ x, (mergeLeft a b).Mem x ↔ a.Mem x ∨ b.Mem x := by
  have hale := ha.le
  have hble := hb.le
  unfold mergeLeft
  split
  · obtain ⟨hok, hmem⟩ := @or_shift_spec _ _ hb ha a.stop (by omega) (by omega) (le_refl _)
    exact ⟨hok, fun x => (hmem x).trans or_comm⟩
  · rename_i hranges
    obtain ⟨start, stop, bits⟩ := a
    obtain ⟨start', stop', bits'⟩ := b
    simp only [not_or, Option.not_isSome_iff_eq_none, not_lt] at hranges
    obtain ⟨rfl, rfl, hadjacent⟩ := hranges
    simp only at hale hble hle
    refine ⟨⟨by show start' ≤ stop; omega, fun bits h => by cases h⟩, fun x => ?_⟩
    simp only [mem_of_range]
    omega

theorem mergeRight_spec (ha : a.Ok) (hb : b.Ok) (hle : a.stop ≤ b.start) :
    (mergeRight a b).Ok ∧ ∀ x, (mergeRight a b).Mem x ↔ a.Mem x ∨ b.Mem x := by
  have hale := ha.le
  have hble := hb.le
  unfold mergeRight
  split
  · exact or_shift_spec ha hb (by omega) (by omega) (le_refl _)
  rename_i hranges
  obtain ⟨start, stop, bits⟩ := a
  obtain ⟨start', stop', bits'⟩ := b
  simp only [not_or, Option.not_isSome_iff_eq_none, not_lt] at hranges
  obtain ⟨rfl, rfl, hadjacent⟩ := hranges
  simp only at hale hble hle
  refine ⟨⟨by show start ≤ stop'; omega, fun bits h => by cases h⟩, fun x => ?_⟩
  simp only [mem_of_range]
  omega

theorem squashBits_spec (ha : a.Ok) : (squashBits a).Ok ∧ (squashBits a).start = a.start ∧
    (squashBits a).stop = a.stop ∧ ∀ x, (squashBits a).Mem x ↔ a.Mem x := by
  obtain ⟨start, stop, bits⟩ := a
  have hle : start ≤ stop := ha.le
  cases bits with
  | none => exact ⟨ha, rfl, rfl, fun x => Iff.rfl⟩
  | some bits =>
    unfold squashBits
    simp only
    split
    · rename_i hfull
      refine ⟨⟨hle, fun bits h => by cases h⟩, rfl, rfl, fun x => ?_⟩
      rw [mem_of_range, mem_of_bits, hfull, testBit_rangeToBits (by omega), decide_eq_true_eq]
      omega
    · exact ⟨ha, rfl, rfl, fun x => Iff.rfl⟩

theorem addInside_spec (ha : a.Ok) (hb : b.Ok) (hstart : a.start ≤ b.start)
    (hstop : b.stop ≤ a.stop) : (addInside a b).Ok ∧ (addInside a b).start = a.start ∧
      (addInside a b).stop = a.stop ∧ ∀ x, (addInside a b).Mem x ↔ a.Mem x ∨ b.Mem x := by
  obtain ⟨start, stop, bits⟩ := a
  cases bits with
  | none =>
    refine ⟨ha, rfl, rfl, fun x => ?_⟩
    show (⟨start, stop, none⟩ : Node).Mem x ↔ _
    rw [mem_of_range]
    constructor
    · exact .inl
    · rintro (hmem | hmem)
      · exact hmem
      · exact ⟨hstart.trans hmem.1, hmem.2.1.trans hstop⟩
  | some bits =>
    obtain ⟨hok, hmem⟩ := or_shift_spec ha hb hstart (le_refl _) hstop
    obtain ⟨hok', hstart', hstop', hmem'⟩ := squashBits_spec hok
    exact ⟨hok', hstart', hstop', fun x => (hmem' x).trans (hmem x)⟩

theorem nodeExtract_spec (hb : b.Ok) {start stop : ℤ} (hle : start ≤ stop) (hstart : b.start ≤ stop)
    (hstop : start ≤ b.stop) :
    (nodeExtract b start stop).Ok ∧ start ≤ (nodeExtract b start stop).start ∧
      (nodeExtract b start stop).stop ≤ stop ∧
      ∀ x, (nodeExtract b start stop).Mem x ↔ b.Mem x ∧ start ≤ x ∧ x ≤ stop := by
  obtain ⟨bstart, bstop, bits⟩ := b
  have hble : bstart ≤ bstop := hb.le
  simp only at hstart hstop
  cases bits with
  | none =>
    refine ⟨⟨?_, fun bits h => by cases h⟩, le_max_left _ _, min_le_left _ _, fun x => ?_⟩
    · show max start bstart ≤ min stop bstop
      omega
    · show (⟨max start bstart, min stop bstop, none⟩ : Node).Mem x ↔ _
      rw [mem_of_range, mem_of_range]
      omega
  | some nodeBits =>
    have hbit : ∀ i : ℕ, (shift nodeBits (bstart - start) &&& rangeToBits start stop).testBit i =
        true ↔ (bstart ≤ start + i ∧ nodeBits.testBit (start + i - bstart).toNat = true) ∧
          start + i ≤ stop := by
      intro i
      rw [Nat.testBit_and, Bool.and_eq_true, testBit_shift, Bool.and_eq_true, decide_eq_true_eq,
        testBit_rangeToBits (by omega), decide_eq_true_eq]
      have hindex : (i : ℤ) - (bstart - start) = start + i - bstart := by ring
      rw [hindex, sub_nonneg]
    have hsize : ∀ i : ℕ,
        (shift nodeBits (bstart - start) &&& rangeToBits start stop).testBit i = true →
        i < (shift nodeBits (bstart - start) &&& rangeToBits start stop).size := by
      intro i hi
      exact Nat.lt_size.mpr (Nat.two_pow_le_of_mem_bitIndices (Nat.mem_bitIndices.mpr hi))
    unfold nodeExtract
    simp only
    generalize shift nodeBits (bstart - start) &&& rangeToBits start stop = bits at hbit hsize
    refine ⟨⟨?_, ?_⟩, le_refl _, min_le_left _ _, fun x => ?_⟩
    · show start ≤ min stop (start + bits.size)
      omega
    · rintro _ ⟨⟩ i hi
      show start + (i : ℤ) ≤ min stop (start + bits.size)
      have hstop := ((hbit i).mp hi).2
      have hlt := hsize i hi
      omega
    · rw [mem_of_bits, mem_of_bits]
      constructor
      · rintro ⟨hlow, hhigh, hi⟩
        obtain ⟨⟨hbstart, hnode⟩, hstop⟩ := (hbit _).mp hi
        rw [Int.toNat_of_nonneg (by omega), add_sub_cancel] at hbstart hnode hstop
        have hbstop := hb.bits nodeBits rfl _ hnode
        simp only at hbstop
        exact ⟨⟨hbstart, by omega, hnode⟩, hlow, hstop⟩
      · rintro ⟨⟨hbstart, hbstop, hnode⟩, hlow, hhigh⟩
        have hi : bits.testBit (x - start).toNat = true := by
          rw [hbit, Int.toNat_of_nonneg (by omega), add_sub_cancel]
          exact ⟨⟨hbstart, hnode⟩, hhigh⟩
        have hlt := hsize _ hi
        exact ⟨hlow, by omega, hi⟩

/-! ## Ordered sets

In a set that is in order every range of a left subtree, also one that has become empty, ends before
the node starts, and every range of a right subtree starts behind its end.  `adjoinKeepsOrder` tells
of an addition whether it can break this order. -/

open Iset

namespace Iset

/-- The integers of a set. -/
def Mem : Iset → ℤ → Prop
  | absent, _ => False
  | node a left right, x => a.Mem x ∨ left.Mem x ∨ right.Mem x

/-- Every range ends before `c`. -/
def endsBefore (c : ℤ) : Iset → Bool
  | absent => true
  | node a left right => decide (a.stop < c) && left.endsBefore c && right.endsBefore c

/-- Every range starts behind `c`. -/
def startsBehind (c : ℤ) : Iset → Bool
  | absent => true
  | node a left right => decide (c < a.start) && left.startsBehind c && right.startsBehind c

/-- A search tree of nodes. -/
def Ordered : Iset → Prop
  | absent => True
  | node a left right =>
    a.Ok ∧ left.endsBefore a.start = true ∧ right.startsBehind a.stop = true ∧
      left.Ordered ∧ right.Ordered

end Iset

/-- The additions that keep the ranges in order.  Otherwise an empty node is used again for a range on
the wrong side of what its subtrees once held, or a range that is not merged with a node shares an end
with it. -/
def adjoinKeepsOrder : ℕ → Iset → Iset → Bool
  | 0, _, _ => false
  | _ + 1, absent, _ => true
  | _ + 1, _, absent => true
  | fuel + 1, node a left right, node b bleft bright =>
    if (node a left right).isEmpty then left.endsBefore b.start && right.startsBehind b.stop
    else if (node b bleft bright).isEmpty then true
    else if b.stop ≤ a.start then
      shouldMergeLeft a left b ||
        (decide (b.stop < a.start) && adjoinKeepsOrder fuel left (node b bleft bright))
    else if b.start ≥ a.stop then
      shouldMergeRight a right b ||
        (decide (b.start > a.stop) && adjoinKeepsOrder fuel right (node b bleft bright))
    else if b.start ≥ a.start ∧ b.stop ≤ a.stop then true
    else
      (decide (b.start ≥ a.start) ||
        adjoinKeepsOrder fuel left
          (node (nodeExtract b b.start (a.start - 1)) absent absent)) &&
      (decide (b.stop ≤ a.stop) ||
        adjoinKeepsOrder fuel right
          (node (nodeExtract b (a.stop + 1) b.stop) absent absent))

variable {a b : Node} {left right is : Iset} {x c : ℤ} {fuel : ℕ}

/-! ## Bounds -/

@[simp] theorem endsBefore_node : (node a left right).endsBefore c = true ↔
    a.stop < c ∧ left.endsBefore c = true ∧ right.endsBefore c = true := by
  simp only [endsBefore, Bool.and_eq_true, decide_eq_true_eq, and_assoc]

@[simp] theorem startsBehind_node : (node a left right).startsBehind c = true ↔
    c < a.start ∧ left.startsBehind c = true ∧ right.startsBehind c = true := by
  simp only [startsBehind, Bool.and_eq_true, decide_eq_true_eq, and_assoc]

theorem lt_of_endsBefore (hbefore : is.endsBefore c = true) (hmem : is.Mem x) : x < c := by
  induction is with
  | absent => cases hmem
  | node a left right ihleft ihright =>
    rw [endsBefore_node] at hbefore
    rcases hmem with hmem | hmem | hmem
    · exact lt_of_le_of_lt hmem.2.1 hbefore.1
    · exact ihleft hbefore.2.1 hmem
    · exact ihright hbefore.2.2 hmem

theorem lt_of_startsBehind (hbehind : is.startsBehind c = true) (hmem : is.Mem x) : c < x := by
  induction is with
  | absent => cases hmem
  | node a left right ihleft ihright =>
    rw [startsBehind_node] at hbehind
    rcases hmem with hmem | hmem | hmem
    · exact lt_of_lt_of_le hbehind.1 hmem.1
    · exact ihleft hbehind.2.1 hmem
    · exact ihright hbehind.2.2 hmem

theorem endsBefore_mono {d : ℤ} (hbefore : is.endsBefore c = true) (hle : c ≤ d) :
    is.endsBefore d = true := by
  induction is with
  | absent => rfl
  | node a left right ihleft ihright =>
    rw [endsBefore_node] at hbefore ⊢
    exact ⟨lt_of_lt_of_le hbefore.1 hle, ihleft hbefore.2.1, ihright hbefore.2.2⟩

theorem startsBehind_mono {d : ℤ} (hbehind : is.startsBehind c = true) (hle : d ≤ c) :
    is.startsBehind d = true := by
  induction is with
  | absent => rfl
  | node a left right ihleft ihright =>
    rw [startsBehind_node] at hbehind ⊢
    exact ⟨lt_of_le_of_lt hle hbehind.1, ihleft hbehind.2.1, ihright hbehind.2.2⟩

theorem maxEnd_lt (hbefore : (node a left right).endsBefore c = true) : maxEnd a right < c := by
  induction right generalizing a left with
  | absent =>
    rw [endsBefore_node] at hbefore
    exact hbefore.1
  | node b bleft bright _ ih =>
    rw [endsBefore_node] at hbefore
    exact @ih _ bleft hbefore.2.2

theorem lt_minStart (hbehind : (node a left right).startsBehind c = true) : c < minStart a left := by
  induction left generalizing a right with
  | absent =>
    rw [startsBehind_node] at hbehind
    exact hbehind.1
  | node b bleft bright ih _ =>
    rw [startsBehind_node] at hbehind
    exact @ih _ bright hbehind.2.1

theorem endsBefore_of_maxEnd (hordered : (node a left right).Ordered) (hmax : maxEnd a right < c) :
    (node a left right).endsBefore c = true := by
  induction right generalizing a left with
  | absent =>
    obtain ⟨hok, hleft, -, -, -⟩ := hordered
    have hle := hok.le
    have hmax : a.stop < c := hmax
    rw [endsBefore_node]
    exact ⟨hmax, endsBefore_mono hleft (by omega), rfl⟩
  | node b bleft bright _ ih =>
    obtain ⟨hok, hleft, hright, -, hordered⟩ := hordered
    have hbefore := ih hordered hmax
    have hlt : b.stop < c := by
      rw [endsBefore_node] at hbefore
      exact hbefore.1
    have hstart : a.stop < b.start := by
      rw [startsBehind_node] at hright
      exact hright.1
    have hle := hok.le
    have hble := hordered.1.le
    exact endsBefore_node.mpr ⟨by omega, endsBefore_mono hleft (by omega), hbefore⟩

theorem startsBehind_of_minStart (hordered : (node a left right).Ordered)
    (hmin : c < minStart a left) : (node a left right).startsBehind c = true := by
  induction left generalizing a right with
  | absent =>
    obtain ⟨hok, -, hright, -, -⟩ := hordered
    have hle := hok.le
    have hmin : c < a.start := hmin
    rw [startsBehind_node]
    exact ⟨hmin, rfl, startsBehind_mono hright (by omega)⟩
  | node b bleft bright ih _ =>
    obtain ⟨hok, hleft, hright, hordered, -⟩ := hordered
    have hbehind := ih hordered hmin
    have hlt : c < b.start := by
      rw [startsBehind_node] at hbehind
      exact hbehind.1
    have hstop : b.stop < a.start := by
      rw [endsBefore_node] at hleft
      exact hleft.1
    have hle := hok.le
    have hble := hordered.1.le
    exact startsBehind_node.mpr ⟨by omega, hbehind, startsBehind_mono hright (by omega)⟩

theorem not_mem_of_isEmpty (hempty : is.isEmpty = true) : ¬ is.Mem x := by
  induction is with
  | absent => exact id
  | node a left right ihleft ihright =>
    simp only [isEmpty, Bool.and_eq_true, decide_eq_true_eq] at hempty
    rintro (hmem | hmem | hmem)
    · have hbit := hmem.2.2 0 hempty.1.1
      rw [Nat.zero_testBit] at hbit
      cases hbit
    · exact ihleft hempty.1.2 hmem
    · exact ihright hempty.2 hmem

end ChibiScheme.IntegerSet
