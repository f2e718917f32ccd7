import ChibiScheme.Iset.Optimize

/-!
# Nodes side by side

The intersection and the difference go through the nodes of two sets side by side and cut the nodes at
the ends of the ranges of the others.  `iset-node-extract` takes the bit length of a bitmap for the distance to its last integer, so
the cut-out part of a bitmap ends one behind this integer where the range allows it, also where the node
has ended before.  What is left of the other node then starts one too late.
-/

namespace ChibiScheme.IntegerSet

open Iset List

/-! ## Cutting nodes -/

/-- What `iset-node-split` returns: what lies before the range, if anything, the node between its ends,
and what lies behind it, if anything. -/
structure Split where
  before : Option Node
  inside : Node
  behind : Option Node

/-- `iset-node-split` -/
def nodeSplit (a : Node) (start stop : ℤ) : Split where
  before := if a.start < start then some (nodeExtract a a.start (start - 1)) else none
  inside := nodeExtract a start stop
  behind := if a.stop > stop then some (nodeExtract a (stop + 1) a.stop) else none

/-- One round of the loops of `iset-intersection2!` and `iset-difference2!`: the node of the first set,
what lies before the overlap, and the overlap as a part of either node. -/
structure Round where
  piece : Node
  before : Option Node
  overlap : Node
  other : Node

theorem nodeExtract_stop_le (a : Node) (start stop : ℤ) : (nodeExtract a start stop).stop ≤ stop := by
  unfold nodeExtract
  split
  · exact min_le_left _ _
  · exact min_le_left _ _

theorem le_nodeExtract_start (a : Node) (start stop : ℤ) :
    start ≤ (nodeExtract a start stop).start := by
  unfold nodeExtract
  split
  · exact le_refl _
  · exact le_max_left _ _

/-- The rounds in which a node meets the nodes of the second set, with what is left of the node and of
these.  A node that ends before the next one of the second set is left as it is. -/
def splitRounds (a : Node) (bs : List Node) : List Round × Option Node × List Node :=
  match bs with
  | [] => ([], some a, [])
  | b :: bs =>
    if b.start > a.stop then ([], some a, b :: bs)
    else if a.start > b.stop then splitRounds a bs
    else
      let aSplit := nodeSplit a b.start b.stop
      let bSplit := nodeSplit b aSplit.inside.start aSplit.inside.stop
      let round : Round := ⟨a, aSplit.before, aSplit.inside, bSplit.inside⟩
      if a.stop > b.stop then
        let (rounds, rest, bs) :=
          splitRounds (nodeExtract a (b.stop + 1) a.stop) (bSplit.behind.toList ++ bs)
        (round :: rounds, rest, bs)
      else ([round], none, bSplit.behind.toList ++ bs)
termination_by ((a.stop - a.start).toNat, bs.length)
decreasing_by
  · exact Prod.lex_def.mpr (.inr ⟨rfl, Nat.lt_succ_self _⟩)
  · have hstart := le_nodeExtract_start a (b.stop + 1) a.stop
    have hstop := nodeExtract_stop_le a (b.stop + 1) a.stop
    exact Prod.lex_def.mpr (.inl (by simp only; omega))

/-- The members of both nodes. -/
def Round.common (round : Round) : Node :=
  { round.overlap with
    bits :=
      match round.other.bits with
      | some bits => some (round.overlap.toBits &&& bits)
      | none => round.overlap.bits }

/-- What stays of the overlap in the difference.  The complement of a bitmap is taken within the other
one. -/
def Round.without (round : Round) : Node :=
  { round.overlap with
    bits :=
      match round.other.bits with
      | some bits => some (Nat.ldiff round.overlap.toBits bits)
      | none => some 0 }

/-! ## Parts of a node -/

variable {a b : Node} {start stop x z c : ℤ}

theorem testBit_size_sub_one {n : ℕ} (h : n ≠ 0) : n.testBit (n.size - 1) = true := by
  have hpos : 0 < n.size := Nat.size_pos.mpr (Nat.pos_of_ne_zero h)
  apply Nat.testBit_of_two_pow_le_and_two_pow_add_one_gt
  · exact Nat.lt_size.mp (Nat.sub_one_lt_of_lt hpos)
  · rw [Nat.sub_add_cancel hpos]
    exact Nat.lt_size_self n

/-- The part of a bitmap ends at its start if nothing is left in it, and otherwise one behind the last
integer that is left. -/
theorem nodeExtract_stop_of_bits (hok : a.Ok) (hbits : a.bits ≠ none) (hle : start ≤ stop)
    (hstart : a.start ≤ stop) (hstop : start ≤ a.stop) :
    ((nodeExtract a start stop).stop = start ∧ ∀ z, start ≤ z → z ≤ stop → ¬ a.Mem z) ∨
      ∃ l, a.Mem l ∧ start ≤ l ∧ l ≤ stop ∧ (∀ z, a.Mem z → z ≤ stop → z ≤ l) ∧
        (nodeExtract a start stop).stop = min stop (l + 1) := by
  obtain ⟨hpart, -, -, hmem⟩ := nodeExtract_spec hok hle hstart hstop
  obtain ⟨nodeBits, hnodeBits⟩ := Option.ne_none_iff_exists'.mp hbits
  have heq : nodeExtract a start stop = ⟨start,
      min stop (start + (shift nodeBits (a.start - start) &&& rangeToBits start stop).size),
      some (shift nodeBits (a.start - start) &&& rangeToBits start stop)⟩ := by
    unfold nodeExtract
    rw [hnodeBits]
  rw [heq] at hpart hmem ⊢
  generalize shift nodeBits (a.start - start) &&& rangeToBits start stop = bits at hpart hmem
  simp only [Node.mem_of_bits] at hmem ⊢
  by_cases hzero : bits = 0
  · refine .inl ⟨by simp [hzero, hle], fun z hlow hhigh hz => ?_⟩
    have hbit := ((hmem z).mpr ⟨hz, hlow, hhigh⟩).2.2
    rw [hzero, Nat.zero_testBit] at hbit
    cases hbit
  · have hlast := testBit_size_sub_one hzero
    have hpos : 0 < bits.size := Nat.size_pos.mpr (Nat.pos_of_ne_zero hzero)
    have hwithin : start + ((bits.size - 1 : ℕ) : ℤ) ≤ min stop (start + bits.size) :=
      hpart.bits bits rfl _ hlast
    have hindex : (start + ((bits.size - 1 : ℕ) : ℤ) - start).toNat = bits.size - 1 := by omega
    have hl := (hmem (start + ((bits.size - 1 : ℕ) : ℤ))).mp
      ⟨by omega, hwithin, by rw [hindex]; exact hlast⟩
    refine .inr ⟨_, hl.1, hl.2.1, hl.2.2, fun z hz hhigh => ?_, by omega⟩
    by_contra hnot
    have hbit := ((hmem z).mpr ⟨hz, by omega, hhigh⟩).2.2
    have hlt : (z - start).toNat < bits.size := by
      rw [Nat.lt_size]
      exact Nat.ge_two_pow_of_testBit hbit
    omega

theorem nodeExtract_bits (a : Node) (start stop : ℤ) :
    (nodeExtract a start stop).bits = none ↔ a.bits = none := by
  unfold nodeExtract
  cases h : a.bits with
  | none => simp
  | some bits => simp

theorem nodeExtract_of_range (hbits : a.bits = none) :
    nodeExtract a start stop = ⟨max start a.start, min stop a.stop, none⟩ := by
  unfold nodeExtract
  rw [hbits]

theorem nodeExtract_stop_le_of_ok (hok : a.Ok) (hle : start ≤ stop) (hstart : a.start ≤ stop)
    (hstop : start ≤ a.stop) :
    (nodeExtract a start stop).stop ≤ a.stop ∨
      (nodeExtract a start stop).stop = a.stop + 1 ∧ a.bits ≠ none ∧ a.Mem a.stop ∧ a.stop < stop := by
  by_cases hbits : a.bits = none
  · rw [nodeExtract_of_range hbits]
    exact .inl (min_le_right _ _)
  · rcases nodeExtract_stop_of_bits hok hbits hle hstart hstop with
      ⟨heq, -⟩ | ⟨l, hl, -, hhigh, -, heq⟩
    · left
      rw [heq]
      exact hstop
    · have hlast : l ≤ a.stop := hl.2.1
      by_cases hlt : l < a.stop
      · left
        omega
      · obtain rfl : l = a.stop := by omega
        by_cases hend : stop ≤ a.stop
        · left
          omega
        · right
          exact ⟨by omega, hbits, hl, by omega⟩

theorem nodeExtract_stop_of_mem_stop (hok : a.Ok) (hbits : a.bits ≠ none) (hmem : a.Mem a.stop)
    (hstop : start ≤ a.stop) (hlt : a.stop < stop) :
    (nodeExtract a start stop).stop = a.stop + 1 := by
  have hle := hok.le
  rcases @nodeExtract_stop_of_bits a start stop hok hbits (by omega) (by omega) hstop with
    ⟨-, hnone⟩ | ⟨l, hl, -, hhigh, hlast, heq⟩
  · exact absurd hmem (hnone _ hstop hlt.le)
  · have hge := hlast _ hmem hlt.le
    have hend : l ≤ a.stop := hl.2.1
    omega

theorem nodeExtract_rest_stop (hok : a.Ok) (hstop : start ≤ a.stop) :
    ((nodeExtract a start a.stop).Mem (nodeExtract a start a.stop).stop ↔ a.Mem a.stop) ∧
      (a.Mem a.stop → (nodeExtract a start a.stop).stop = a.stop) := by
  obtain ⟨hpart, hlow, hhigh, hmem⟩ := nodeExtract_spec hok hstop hok.le hstop
  have heq : a.Mem a.stop → (nodeExtract a start a.stop).stop = a.stop := fun hend =>
    le_antisymm hhigh ((hmem _).mpr ⟨hend, hstop, le_refl _⟩).2.1
  refine ⟨⟨fun hend => ?_, fun hend => ?_⟩, heq⟩
  · by_cases hbits : a.bits = none
    · obtain ⟨start, stop, bits⟩ := a
      obtain rfl : bits = none := hbits
      exact Node.mem_of_range.mpr ⟨hok.le, le_refl _⟩
    · rcases nodeExtract_stop_of_bits hok hbits hstop hok.le hstop with
        ⟨-, hnone⟩ | ⟨l, hl, -, -, hlast, heq⟩
      · obtain ⟨ha, hlow, hhigh⟩ := (hmem _).mp hend
        exact absurd ha (hnone _ hlow hhigh)
      · obtain ⟨ha, -, hhigh⟩ := (hmem _).mp hend
        have hle := hlast _ ha hhigh
        obtain rfl : l = a.stop := by
          have hend : l ≤ a.stop := hl.2.1
          omega
        exact hl
  · rw [heq hend, hmem]
    exact ⟨hend, hstop, le_refl _⟩

/-! ## One round -/

/-- What a round makes of a node of either set.  `behind` is what is left of the second one. -/
structure Meeting (a b : Node) (round : Round) (behind : Option Node) : Prop where
  piece : round.piece = a
  common_ok : round.common.Ok
  without_ok : round.without.Ok
  low : b.start ≤ round.overlap.start
  high : round.overlap.stop ≤ b.stop
  common_mem : ∀ z, round.common.Mem z ↔ a.Mem z ∧ b.Mem z
  without_mem : ∀ z, round.without.Mem z ↔ (a.Mem z ∧ ¬ b.Mem z) ∧ b.start ≤ z ∧ z ≤ b.stop
  before_range : ∀ p ∈ round.before, p.Ok ∧ a.start ≤ p.start ∧ p.stop < b.start
  before_mem : ∀ z, (∃ p ∈ round.before, p.Mem z) ↔ a.Mem z ∧ z < b.start
  behind_range : ∀ p ∈ behind, p.Ok ∧ round.overlap.stop < p.start ∧ p.stop ≤ b.stop
  behind_mem : ∀ z, (∃ p ∈ behind, p.Mem z) ↔ b.Mem z ∧ round.overlap.stop < z
  passed : ∀ z, a.Mem z → z ≤ b.stop → z ≤ round.overlap.stop
  stop_le : round.overlap.stop ≤ a.stop ∨
    round.overlap.stop = a.stop + 1 ∧ a.bits ≠ none ∧ a.Mem a.stop ∧ a.stop < b.stop
  stop_eq : a.bits ≠ none → a.Mem a.stop → a.stop < b.stop → round.overlap.stop = a.stop + 1

theorem ok_of_subset {bits : ℕ} (hok : a.Ok)
    (hsub : ∀ i, bits.testBit i = true → a.toBits.testBit i = true) :
    ({ a with bits := some bits } : Node).Ok := by
  refine ⟨hok.le, ?_⟩
  rintro _ ⟨⟩ i hi
  exact hok.toBits_le (hsub i hi)

theorem mem_of_subset {bits : ℕ} (hok : a.Ok)
    (hsub : ∀ i, bits.testBit i = true → a.toBits.testBit i = true) :
    ({ a with bits := some bits } : Node).Mem z ↔ a.start ≤ z ∧ bits.testBit (z - a.start).toNat = true := by
  exact (ok_of_subset hok hsub).mem_iff

theorem nodeExtract_start_of_bits {bits : ℕ} (hbits : (nodeExtract a start stop).bits = some bits) :
    (nodeExtract a start stop).start = start := by
  unfold nodeExtract at *
  cases h : a.bits with
  | none => simp [h] at hbits
  | some nodeBits => rfl

theorem overlap_spec {o b : Node} (piece : Node) (before : Option Node) (ho : o.Ok) (hb : b.Ok)
    (hlow : b.start ≤ o.start) (hhigh : o.stop ≤ b.stop) :
    (Round.common ⟨piece, before, o, nodeExtract b o.start o.stop⟩).Ok ∧
      (Round.without ⟨piece, before, o, nodeExtract b o.start o.stop⟩).Ok ∧
      (∀ z, (Round.common ⟨piece, before, o, nodeExtract b o.start o.stop⟩).Mem z ↔
        o.Mem z ∧ b.Mem z) ∧
      ∀ z, (Round.without ⟨piece, before, o, nodeExtract b o.start o.stop⟩).Mem z ↔
        o.Mem z ∧ ¬ b.Mem z := by
  have hle := ho.le
  obtain ⟨hpart, -, -, hmem⟩ := @nodeExtract_spec b hb o.start o.stop hle (by omega) (by omega)
  unfold Round.common Round.without
  simp only
  cases hbits : (nodeExtract b o.start o.stop).bits with
  | none =>
    -- the second set holds all of the range
    have hall : ∀ z, o.Mem z → b.Mem z := by
      intro z hz
      obtain ⟨bstart, bstop, bits⟩ := b
      obtain rfl : bits = none := (nodeExtract_bits _ _ _).mp hbits
      exact Node.mem_of_range.mpr ⟨hlow.trans hz.1, hz.2.1.trans hhigh⟩
    have hnone : ∀ i, (0 : ℕ).testBit i = true → o.toBits.testBit i = true := by simp
    refine ⟨ho, ok_of_subset ho hnone, fun z => ⟨fun hz => ⟨hz, hall z hz⟩, fun hz => hz.1⟩,
      fun z => ?_⟩
    rw [mem_of_subset ho hnone, Nat.zero_testBit]
    constructor
    · rintro ⟨-, hbit⟩
      cases hbit
    · rintro ⟨hz, hnot⟩
      exact absurd (hall z hz) hnot
  | some bits =>
    have hstart := nodeExtract_start_of_bits hbits
    have htoBits : (nodeExtract b o.start o.stop).toBits = bits := by
      rw [Node.toBits, hbits, Option.getD_some]
    have hbit : ∀ z, o.start ≤ z → z ≤ o.stop →
        (bits.testBit (z - o.start).toNat = true ↔ b.Mem z) := by
      intro z hlow hhigh
      have hiff := hmem z
      rw [hpart.mem_iff, hstart, htoBits] at hiff
      constructor
      · exact fun hbit => (hiff.mp ⟨hlow, hbit⟩).1
      · exact fun hz => (hiff.mpr ⟨hz, hlow, hhigh⟩).2
    have hand : ∀ i, (o.toBits &&& bits).testBit i = true → o.toBits.testBit i = true := by
      intro i hi
      rw [Nat.testBit_and, Bool.and_eq_true] at hi
      exact hi.1
    have hdiff : ∀ i, (o.toBits.ldiff bits).testBit i = true → o.toBits.testBit i = true := by
      intro i hi
      rw [Nat.testBit_ldiff, Bool.and_eq_true] at hi
      exact hi.1
    refine ⟨ok_of_subset ho hand, ok_of_subset ho hdiff, fun z => ?_, fun z => ?_⟩
    · rw [mem_of_subset ho hand, Nat.testBit_and, Bool.and_eq_true, ← and_assoc, ← ho.mem_iff]
      exact and_congr_right fun hz => hbit z hz.1 hz.2.1
    · rw [mem_of_subset ho hdiff, Nat.testBit_ldiff, Bool.and_eq_true, ← and_assoc,
        ← ho.mem_iff]
      refine and_congr_right fun hz => ?_
      rw [← hbit z hz.1 hz.2.1]
      simp

theorem nodeSplit_before (hok : a.Ok) (start stop : ℤ) :
    (∀ p ∈ (nodeSplit a start stop).before, p.Ok ∧ a.start ≤ p.start ∧ p.stop < start) ∧
      ∀ z, (∃ p ∈ (nodeSplit a start stop).before, p.Mem z) ↔ a.Mem z ∧ z < start := by
  simp only [nodeSplit, Option.mem_def]
  split
  · rename_i hlt
    obtain ⟨hpart, hfirst, hlast, hmem⟩ := @nodeExtract_spec a hok a.start (start - 1)
      (by omega) (by omega) hok.le
    simp only [Option.some.injEq, exists_eq_left', forall_eq', hmem]
    refine ⟨⟨hpart, hfirst, by omega⟩, fun z => ⟨fun h => ⟨h.1, by omega⟩, fun h => ?_⟩⟩
    exact ⟨h.1, h.1.1, by omega⟩
  · rename_i hge
    refine ⟨fun p hp => (by cases hp), fun z => ⟨?_, ?_⟩⟩
    · rintro ⟨p, hp, -⟩
      cases hp
    · rintro ⟨hz, hlt⟩
      exact absurd (lt_of_le_of_lt hz.1 hlt) hge

theorem nodeSplit_behind (hok : a.Ok) (start stop : ℤ) :
    (∀ p ∈ (nodeSplit a start stop).behind, p.Ok ∧ stop < p.start ∧ p.stop ≤ a.stop) ∧
      ∀ z, (∃ p ∈ (nodeSplit a start stop).behind, p.Mem z) ↔ a.Mem z ∧ stop < z := by
  simp only [nodeSplit, Option.mem_def]
  split
  · rename_i hlt
    obtain ⟨hpart, hfirst, hlast, hmem⟩ := @nodeExtract_spec a hok (stop + 1) a.stop
      (by omega) hok.le (by omega)
    simp only [Option.some.injEq, exists_eq_left', forall_eq', hmem]
    refine ⟨⟨hpart, by omega, hlast⟩, fun z => ⟨fun h => ⟨h.1, by omega⟩, fun h => ?_⟩⟩
    exact ⟨h.1, by omega, h.1.2.1⟩
  · rename_i hge
    refine ⟨fun p hp => (by cases hp), fun z => ⟨?_, ?_⟩⟩
    · rintro ⟨p, hp, -⟩
      cases hp
    · rintro ⟨hz, hlt⟩
      exact absurd (lt_of_lt_of_le hlt hz.2.1) hge

theorem meeting (ha : a.Ok) (hb : b.Ok) (hstart : b.start ≤ a.stop) (hstop : a.start ≤ b.stop) :
    Meeting a b
      ⟨a, (nodeSplit a b.start b.stop).before, (nodeSplit a b.start b.stop).inside,
        (nodeSplit b (nodeSplit a b.start b.stop).inside.start
          (nodeSplit a b.start b.stop).inside.stop).inside⟩
      (nodeSplit b (nodeSplit a b.start b.stop).inside.start
        (nodeSplit a b.start b.stop).inside.stop).behind := by
  obtain ⟨ho, hlow, hhigh, hmem⟩ := nodeExtract_spec ha hb.le hstop hstart
  have hle := ho.le
  obtain ⟨hcommon, hwithout, hcommonMem, hwithoutMem⟩ :=
    overlap_spec a (nodeSplit a b.start b.stop).before ho hb hlow hhigh
  have hbefore := nodeSplit_before ha b.start b.stop
  have hbehind := nodeSplit_behind hb (nodeExtract a b.start b.stop).start
    (nodeExtract a b.start b.stop).stop
  refine ⟨rfl, hcommon, hwithout, hlow, hhigh, fun z => ?_, fun z => ?_, hbefore.1, hbefore.2,
    hbehind.1, hbehind.2, fun z hz hle => ?_, ?_, fun hbits hlast hlt => ?_⟩
  · refine (hcommonMem z).trans ?_
    rw [hmem]
    exact ⟨fun h => ⟨h.1.1, h.2⟩, fun h => ⟨⟨h.1, h.2.1, h.2.2.1⟩, h.2⟩⟩
  · refine (hwithoutMem z).trans ?_
    rw [hmem]
    tauto
  · by_cases hfirst : b.start ≤ z
    · exact ((hmem z).mpr ⟨hz, hfirst, hle⟩).2.1
    · simp only [nodeSplit]
      omega
  · exact nodeExtract_stop_le_of_ok ha hb.le hstop hstart
  · exact nodeExtract_stop_of_mem_stop ha hbits hlast hstart hlt

/-! ## All rounds of a node -/

/-- The integers that the nodes of a list hold. -/
def MemAny (l : List Node) (x : ℤ) : Prop := ∃ a ∈ l, a.Mem x

@[simp] theorem memAny_nil : MemAny [] x ↔ False := by
  simp [MemAny]

@[simp] theorem memAny_cons {l : List Node} : MemAny (a :: l) x ↔ a.Mem x ∨ MemAny l x := by
  simp [MemAny]

@[simp] theorem memAny_append {l l' : List Node} : MemAny (l ++ l') x ↔ MemAny l x ∨ MemAny l' x := by
  simp [MemAny, or_and_right, exists_or]

theorem memAny_toList {o : Option Node} : MemAny o.toList x ↔ ∃ p ∈ o, p.Mem x := by
  simp [MemAny, Option.mem_toList]

/-- The bitmap `a` holds its last integer, and a node of the second set goes on behind it: the overlap
ends one behind the last integer of the node. -/
def Overruns (a : Node) (bs : List Node) : Prop :=
  a.bits ≠ none ∧ a.Mem a.stop ∧ ∃ b ∈ bs, b.start ≤ a.stop ∧ a.stop < b.stop

/-- The nodes that a node of the first set is replaced by in the difference. -/
def piecesOf (rounds : List Round) (rest : Option Node) : List Node :=
  (rounds.flatMap fun round => round.before.toList ++ [round.without]) ++ rest.toList

/-- What the rounds of the node `a` do, where `bs'` is left of the nodes `bs`. -/
structure RoundsSpec (a : Node) (bs : List Node) (rounds : List Round) (rest : Option Node)
    (bs' : List Node) : Prop where
  nonempty : rounds ≠ [] ∨ rest ≠ none
  common_order : InOrder (rounds.map Round.common)
  common_mem : ∀ z, MemAny (rounds.map Round.common) z ↔ a.Mem z ∧ MemAny bs z
  common_low : ∀ c, (∀ b ∈ bs, c < b.start) → ∀ p ∈ rounds.map Round.common, c < p.start
  common_apart : ∀ p ∈ rounds.map Round.common, ∀ b ∈ bs', p.stop < b.start
  order : InOrder (piecesOf rounds rest)
  mem : ∀ z, MemAny (piecesOf rounds rest) z ↔ a.Mem z ∧ ¬ MemAny bs z
  low : ∀ c, c < a.start → (∀ b ∈ bs, c < b.start) → ∀ p ∈ piecesOf rounds rest, c < p.start
  high : ∀ p ∈ piecesOf rounds rest, p.stop ≤ a.stop ∨ Overruns a bs ∧ p.stop = a.stop + 1
  overrun : Overruns a bs → ∃ p ∈ piecesOf rounds rest, p.stop = a.stop + 1
  next_stop : ∀ p ∈ rounds.map Round.piece ++ rest.toList, p.stop ≤ a.stop
  before_start : ∀ round ∈ rounds, ∀ p ∈ round.before, a.start ≤ p.start
  passed : ∀ z, a.Mem z → ∀ b ∈ bs', z < b.start
  rest_order : InOrder bs'
  rest_low : ∀ c, (∀ b ∈ bs, c < b.start) → ∀ b ∈ bs', c < b.start
  rest_mem : ∀ z, a.stop < z →
    (MemAny bs' z ↔ MemAny bs z ∧ ¬ (Overruns a bs ∧ z = a.stop + 1))

variable {bs bs' : List Node} {rounds : List Round} {round : Round} {rest behind : Option Node}

theorem RoundsSpec.stay (ha : a.Ok) (hbs : InOrder bs) (hbehind : ∀ b ∈ bs, a.stop < b.start) :
    RoundsSpec a bs [] (some a) bs := by
  have hoverruns : ¬ Overruns a bs := by
    rintro ⟨-, -, b, hb, hstart, -⟩
    exact absurd (hbehind b hb) (not_lt.mpr hstart)
  have hpieces : piecesOf [] (some a) = [a] := rfl
  have hapart : ∀ z, a.Mem z → ¬ MemAny bs z := by
    rintro z hz ⟨b, hb, hmem⟩
    have hlt := hbehind b hb
    have hlow := hmem.1
    have hhigh := hz.2.1
    omega
  refine {
    nonempty := .inr (Option.some_ne_none a)
    common_order := .nil
    common_mem := fun z => ?_
    common_low := fun c _ p hp => (not_mem_nil hp).elim
    common_apart := fun p hp => (not_mem_nil hp).elim
    order := ?_
    mem := fun z => ?_
    low := fun c hc _ p hp => ?_
    high := fun p hp => ?_
    overrun := fun h => absurd h hoverruns
    next_stop := fun p hp => ?_
    before_start := fun r hr => (not_mem_nil hr).elim
    passed := fun z hz b hb => ?_
    rest_order := hbs
    rest_low := fun c h => h
    rest_mem := fun z _ => ?_ }
  · simp only [map_nil, memAny_nil, false_iff, not_and]
    exact hapart z
  · rw [hpieces, InOrder.cons_iff]
    exact ⟨ha, fun _ h => (not_mem_nil h).elim, .nil⟩
  · rw [hpieces]
    simp only [memAny_cons, memAny_nil, or_false]
    exact ⟨fun hz => ⟨hz, hapart z hz⟩, fun h => h.1⟩
  · rw [hpieces, mem_singleton] at hp
    rwa [hp]
  · rw [hpieces, mem_singleton] at hp
    rw [hp]
    exact .inl (le_refl _)
  · obtain rfl : p = a := by simpa using hp
    exact le_refl _
  · exact lt_of_le_of_lt hz.2.1 (hbehind b hb)
  · simp [hoverruns]

theorem RoundsSpec.skip (ha : a.Ok) (hb : b.stop < a.start) (h : RoundsSpec a bs rounds rest bs') :
    RoundsSpec a (b :: bs) rounds rest bs' := by
  have hle := ha.le
  have hnot : ∀ z, a.start ≤ z → ¬ b.Mem z := fun z hz hmem =>
    absurd (lt_of_le_of_lt hmem.2.1 hb) (not_lt.mpr hz)
  have hmem : ∀ z, a.start ≤ z → (MemAny (b :: bs) z ↔ MemAny bs z) := fun z hz => by
    rw [memAny_cons]
    exact or_iff_right (hnot z hz)
  have hoverruns : Overruns a (b :: bs) ↔ Overruns a bs := by
    unfold Overruns
    rw [exists_mem_cons_iff]
    refine and_congr_right fun _ => and_congr_right fun _ => or_iff_right ?_
    rintro ⟨-, hlt⟩
    omega
  refine {
    nonempty := h.nonempty
    common_order := h.common_order
    common_mem := fun z => (h.common_mem z).trans (and_congr_right fun hz => (hmem z hz.1).symm)
    common_low := fun c hc => h.common_low c fun b hb => hc b (mem_cons_of_mem _ hb)
    common_apart := h.common_apart
    order := h.order
    mem := fun z => (h.mem z).trans
      (and_congr_right fun hz => not_congr (hmem z hz.1).symm)
    low := fun c hc hbs => h.low c hc fun b hb => hbs b (mem_cons_of_mem _ hb)
    high := fun p hp => ?_
    overrun := fun hover => h.overrun (hoverruns.mp hover)
    next_stop := h.next_stop
    before_start := h.before_start
    passed := h.passed
    rest_order := h.rest_order
    rest_low := fun c hc => h.rest_low c fun b hb => hc b (mem_cons_of_mem _ hb)
    rest_mem := fun z hz => ?_ }
  · rw [hoverruns]
    exact h.high p hp
  · rw [hoverruns, hmem z (by omega)]
    exact h.rest_mem z hz

theorem piecesOf_cons (round : Round) (rounds : List Round) (rest : Option Node) :
    piecesOf (round :: rounds) rest =
      round.before.toList ++ round.without :: piecesOf rounds rest := by
  simp [piecesOf]

theorem Meeting.order_cons (h : Meeting a b round behind) {pieces : List Node} (hpieces : InOrder pieces)
    (hlow : ∀ p ∈ pieces, round.overlap.stop < p.start) :
    InOrder (round.before.toList ++ round.without :: pieces) := by
  have hstart := h.low
  have hle : round.overlap.start ≤ round.overlap.stop := h.common_ok.le
  rw [InOrder.append_iff, InOrder.cons_iff]
  refine ⟨?_, ⟨h.without_ok, hlow, hpieces⟩, fun p hp q hq => ?_⟩
  · cases hbefore : round.before with
    | none => exact .nil
    | some p =>
      rw [Option.toList_some, InOrder.cons_iff]
      exact ⟨(h.before_range p hbefore).1, fun _ h => (not_mem_nil h).elim, .nil⟩
  · obtain ⟨-, -, hstop⟩ := h.before_range p (Option.mem_toList.mp hp)
    rcases mem_cons.mp hq with rfl | hq
    · show p.stop < round.overlap.start
      omega
    · have hlt := hlow q hq
      omega

theorem Meeting.behind_order (h : Meeting a b round behind) (hbs : InOrder (b :: bs)) :
    InOrder (behind.toList ++ bs) := by
  obtain ⟨hb, hapart, hbs⟩ := InOrder.cons_iff.mp hbs
  cases behind with
  | none => exact hbs
  | some p =>
    obtain ⟨hok, -, hstop⟩ := h.behind_range p rfl
    rw [Option.toList_some, singleton_append, InOrder.cons_iff]
    exact ⟨hok, fun c hc => lt_of_le_of_lt hstop (hapart c hc), hbs⟩

theorem Meeting.behind_low (h : Meeting a b round behind) (hbs : InOrder (b :: bs)) :
    ∀ p ∈ behind.toList ++ bs, round.overlap.stop < p.start := by
  intro p hp
  rcases mem_append.mp hp with hp | hp
  · exact (h.behind_range p (Option.mem_toList.mp hp)).2.1
  · exact lt_of_le_of_lt h.high ((InOrder.cons_iff.mp hbs).2.1 p hp)

theorem Meeting.behind_mono (h : Meeting a b round behind) {c : ℤ} (hc : ∀ p ∈ b :: bs, c < p.start) :
    ∀ p ∈ behind.toList ++ bs, c < p.start := by
  intro p hp
  rcases mem_append.mp hp with hp | hp
  · have hstart := (h.behind_range p (Option.mem_toList.mp hp)).2.1
    have hlow := h.low
    have hle : round.overlap.start ≤ round.overlap.stop := h.common_ok.le
    have hb := hc b mem_cons_self
    omega
  · exact hc p (mem_cons_of_mem _ hp)

theorem lt_of_memAny (hbs : InOrder (b :: bs)) (hz : MemAny bs z) : b.stop < z := by
  obtain ⟨c, hc, hmem⟩ := hz
  exact lt_of_lt_of_le ((InOrder.cons_iff.mp hbs).2.1 c hc) hmem.1

theorem RoundsSpec.last (hbs : InOrder (b :: bs)) (hstart : b.start ≤ a.stop)
    (hstop : a.stop ≤ b.stop) (h : Meeting a b round behind) :
    RoundsSpec a (b :: bs) [round] none (behind.toList ++ bs) := by
  have hlow := h.low
  have hle : round.overlap.start ≤ round.overlap.stop := h.common_ok.le
  -- the last round overruns exactly if the node that is cut ends behind `a`
  have hoverruns : Overruns a (b :: bs) ↔ a.bits ≠ none ∧ a.Mem a.stop ∧ a.stop < b.stop := by
    unfold Overruns
    rw [exists_mem_cons_iff]
    refine and_congr_right fun _ => and_congr_right fun _ => ⟨?_, fun hlt => .inl ⟨hstart, hlt⟩⟩
    rintro (hlt | ⟨c, hc, hfirst, -⟩)
    · exact hlt.2
    · have hlt := (InOrder.cons_iff.mp hbs).2.1 c hc
      omega
  have hstop_eq : Overruns a (b :: bs) → round.overlap.stop = a.stop + 1 := by
    rw [hoverruns]
    exact fun hover => h.stop_eq hover.1 hover.2.1 hover.2.2
  have hstop_le : round.overlap.stop ≤ a.stop ∨
      Overruns a (b :: bs) ∧ round.overlap.stop = a.stop + 1 := by
    rw [hoverruns]
    exact h.stop_le.imp id fun hover => ⟨hover.2, hover.1⟩
  have hpieces : piecesOf [round] none = round.before.toList ++ [round.without] := by
    rw [piecesOf_cons]
    rfl
  have hnotLater : ∀ z, z ≤ b.stop → ¬ MemAny bs z := fun z hz hmem =>
    absurd (lt_of_memAny hbs hmem) (not_lt.mpr hz)
  refine {
    nonempty := .inl (cons_ne_nil _ _)
    common_order := ?_
    common_mem := fun z => ?_
    common_low := fun c hc p hp => ?_
    common_apart := fun p hp => ?_
    order := ?_
    mem := fun z => ?_
    low := fun c hc hcs p hp => ?_
    high := fun p hp => ?_
    overrun := fun hover => ?_
    next_stop := fun p hp => ?_
    before_start := fun r hr p hp => ?_
    passed := fun z hz p hp => ?_
    rest_order := h.behind_order hbs
    rest_low := fun c hc => h.behind_mono hc
    rest_mem := fun z hz => ?_ }
  · rw [map_singleton, InOrder.cons_iff]
    exact ⟨h.common_ok, fun _ h => (not_mem_nil h).elim, .nil⟩
  · rw [map_singleton, memAny_cons, memAny_cons, h.common_mem]
    simp only [memAny_nil, or_false]
    refine and_congr_right fun hz => (or_iff_left ?_).symm
    exact hnotLater z (hz.2.1.trans hstop)
  · rw [map_singleton, mem_singleton] at hp
    rw [hp]
    exact lt_of_lt_of_le (hc b mem_cons_self) h.low
  · rw [map_singleton, mem_singleton] at hp
    rw [hp]
    exact h.behind_low hbs
  · rw [hpieces]
    exact h.order_cons .nil fun _ h => (not_mem_nil h).elim
  · rw [hpieces, memAny_append, memAny_toList, h.before_mem, memAny_cons, h.without_mem,
      memAny_cons]
    simp only [memAny_nil, or_false]
    constructor
    · rintro (⟨hz, hlt⟩ | ⟨⟨hz, hnot⟩, -⟩)
      · have hlater := hnotLater z (hz.2.1.trans hstop)
        exact ⟨hz, fun hor => hor.elim (fun hb => absurd hb.1 (not_le.mpr hlt)) hlater⟩
      · have hlater := hnotLater z (hz.2.1.trans hstop)
        exact ⟨hz, fun hor => hor.elim hnot hlater⟩
    · rintro ⟨hz, hnot⟩
      by_cases hlt : z < b.start
      · exact .inl ⟨hz, hlt⟩
      · exact .inr ⟨⟨hz, fun hb => hnot (.inl hb)⟩, not_lt.mp hlt, hz.2.1.trans hstop⟩
  · rw [hpieces, mem_append, Option.mem_toList, mem_singleton] at hp
    rcases hp with hp | rfl
    · exact lt_of_lt_of_le hc (h.before_range p hp).2.1
    · exact lt_of_lt_of_le (hcs b mem_cons_self) h.low
  · rw [hpieces, mem_append, Option.mem_toList, mem_singleton] at hp
    rcases hp with hp | rfl
    · have hlt := (h.before_range p hp).2.2
      exact .inl (by omega)
    · exact hstop_le
  · refine ⟨round.without, ?_, hstop_eq hover⟩
    rw [hpieces]
    simp
  · obtain rfl : p = round.piece := by simpa using hp
    rw [h.piece]
  · obtain rfl := mem_singleton.mp hr
    exact (h.before_range p hp).2.1
  · have hle := h.passed z hz (hz.2.1.trans hstop)
    exact lt_of_le_of_lt hle (h.behind_low hbs p hp)
  · rw [memAny_append, memAny_toList, h.behind_mem, memAny_cons]
    constructor
    · rintro (⟨hb, hlt⟩ | hlater)
      · refine ⟨.inl hb, ?_⟩
        rintro ⟨hover, rfl⟩
        rw [hstop_eq hover] at hlt
        exact lt_irrefl _ hlt
      · refine ⟨.inr hlater, ?_⟩
        rintro ⟨hover, rfl⟩
        have hlt := lt_of_memAny hbs hlater
        have hhigh := h.high
        rw [hstop_eq hover] at hhigh
        omega
    · rintro ⟨hb | hlater, hnot⟩
      · refine .inl ⟨hb, ?_⟩
        rcases hstop_le with hle | ⟨hover, heq⟩
        · omega
        · have hne : z ≠ a.stop + 1 := fun heq => hnot ⟨hover, heq⟩
          omega
      · exact .inr hlater

theorem RoundsSpec.more (ha : a.Ok) (hbs : InOrder (b :: bs)) (hstart : a.start ≤ b.stop)
    (hstop : b.stop < a.stop) (h : Meeting a b round behind)
    (hrounds : RoundsSpec (nodeExtract a (b.stop + 1) a.stop) (behind.toList ++ bs) rounds rest bs') :
    RoundsSpec a (b :: bs) (round :: rounds) rest bs' := by
  have hlow := h.low
  have hhigh := h.high
  have hle : round.overlap.start ≤ round.overlap.stop := h.common_ok.le
  obtain ⟨-, hrestLow, hrestHigh, hrestMem⟩ := @nodeExtract_spec a ha (b.stop + 1) a.stop
    (by omega) ha.le (by omega)
  obtain ⟨hrestStop, hrestEq⟩ := @nodeExtract_rest_stop a (b.stop + 1) ha (by omega)
  have hrestBits := nodeExtract_bits a (b.stop + 1) a.stop
  generalize nodeExtract a (b.stop + 1) a.stop = a' at *
  have hoverruns : Overruns a (b :: bs) ↔ Overruns a' (behind.toList ++ bs) := by
    unfold Overruns
    rw [Ne, Ne, hrestBits, hrestStop]
    refine and_congr_right fun _ => and_congr_right fun hlast => ?_
    rw [hrestEq hlast]
    constructor
    · rintro ⟨c, hc, hfirst, hlt⟩
      rcases mem_cons.mp hc with rfl | hc
      · omega
      · exact ⟨c, mem_append_right _ hc, hfirst, hlt⟩
    · rintro ⟨c, hc, hfirst, hlt⟩
      rcases mem_append.mp hc with hc | hc
      · have hend := (h.behind_range c (Option.mem_toList.mp hc)).2.2
        omega
      · exact ⟨c, mem_cons_of_mem _ hc, hfirst, hlt⟩
  have hoverStop : Overruns a (b :: bs) → a'.stop = a.stop := fun hover => hrestEq hover.2.1
  have hbehindLow := h.behind_low hbs
  -- the second set behind the node of it
  have hlater : ∀ z, b.stop < z → (MemAny (behind.toList ++ bs) z ↔ MemAny (b :: bs) z) := by
    intro z hz
    have hnot : ¬ b.Mem z := fun hb => absurd hb.2.1 (not_le.mpr hz)
    rw [memAny_append, memAny_toList, h.behind_mem, memAny_cons, or_iff_right hnot,
      or_iff_right fun hor => hnot hor.1]
  have hnotLater : ∀ z, z ≤ b.stop → ¬ MemAny bs z := fun z hz hmem =>
    absurd (lt_of_memAny hbs hmem) (not_lt.mpr hz)
  have hbefore : ∀ p ∈ round.before, p.stop < round.overlap.stop := fun p hp => by
    have hlt := (h.before_range p hp).2.2
    omega
  have hcommonLow := hrounds.common_low round.overlap.stop hbehindLow
  have hpieceLow := hrounds.low round.overlap.stop (by omega) hbehindLow
  refine {
    nonempty := .inl (cons_ne_nil _ _)
    common_order := ?_
    common_mem := fun z => ?_
    common_low := fun c hc p hp => ?_
    common_apart := fun p hp q hq => ?_
    order := ?_
    mem := fun z => ?_
    low := fun c hc hcs p hp => ?_
    high := fun p hp => ?_
    overrun := fun hover => ?_
    next_stop := fun p hp => ?_
    before_start := fun r hr p hp => ?_
    passed := fun z hz p hp => ?_
    rest_order := hrounds.rest_order
    rest_low := fun c hc => hrounds.rest_low c (h.behind_mono hc)
    rest_mem := fun z hz => ?_ }
  · rw [map_cons, InOrder.cons_iff]
    exact ⟨h.common_ok, hcommonLow, hrounds.common_order⟩
  · rw [map_cons, memAny_cons, h.common_mem, hrounds.common_mem, hrestMem]
    constructor
    · rintro (⟨hz, hb⟩ | ⟨⟨hz, hlt, -⟩, hmem⟩)
      · exact ⟨hz, memAny_cons.mpr (.inl hb)⟩
      · exact ⟨hz, (hlater z (by omega)).mp hmem⟩
    · rintro ⟨hz, hmem⟩
      by_cases hlt : b.stop < z
      · exact .inr ⟨⟨hz, by omega, hz.2.1⟩, (hlater z hlt).mpr hmem⟩
      · exact .inl ⟨hz, (memAny_cons.mp hmem).resolve_right (hnotLater z (not_lt.mp hlt))⟩
  · rcases mem_cons.mp hp with rfl | hp
    · exact lt_of_lt_of_le (hc b mem_cons_self) hlow
    · exact hrounds.common_low c (h.behind_mono hc) p hp
  · rcases mem_cons.mp hp with rfl | hp
    · exact hrounds.rest_low _ hbehindLow q hq
    · exact hrounds.common_apart p hp q hq
  · rw [piecesOf_cons]
    exact h.order_cons hrounds.order hpieceLow
  · rw [piecesOf_cons, memAny_append, memAny_toList, h.before_mem, memAny_cons, h.without_mem,
      hrounds.mem, hrestMem]
    rcases lt_or_ge b.stop z with hlt | hge
    · have hnot : ¬ b.Mem z := fun hb => absurd hb.2.1 (not_le.mpr hlt)
      rw [hlater z hlt]
      constructor
      · rintro (⟨-, hfirst⟩ | ⟨-, -, hlast⟩ | ⟨⟨hz, -⟩, hmem⟩)
        · have hok := h.low
          omega
        · omega
        · exact ⟨hz, hmem⟩
      · rintro ⟨hz, hmem⟩
        exact .inr (.inr ⟨⟨hz, by omega, hz.2.1⟩, hmem⟩)
    · have hiff : MemAny (b :: bs) z ↔ b.Mem z := by
        rw [memAny_cons]
        exact or_iff_left (hnotLater z hge)
      rw [hiff]
      constructor
      · rintro (⟨hz, hfirst⟩ | ⟨hz, -⟩ | ⟨⟨hz, hlt, -⟩, -⟩)
        · exact ⟨hz, fun hb => absurd hb.1 (not_le.mpr hfirst)⟩
        · exact hz
        · omega
      · intro hz
        by_cases hfirst : z < b.start
        · exact .inl ⟨hz.1, hfirst⟩
        · exact .inr (.inl ⟨hz, not_lt.mp hfirst, hge⟩)
  · rw [piecesOf_cons, mem_append, Option.mem_toList, mem_cons] at hp
    rcases hp with hp | rfl | hp
    · exact lt_of_lt_of_le hc (h.before_range p hp).2.1
    · exact lt_of_lt_of_le (hcs b mem_cons_self) hlow
    · have hb := hcs b mem_cons_self
      exact hrounds.low c (by omega) (h.behind_mono hcs) p hp
  · rw [piecesOf_cons, mem_append, Option.mem_toList, mem_cons] at hp
    rcases hp with hp | rfl | hp
    · have hlt := hbefore p hp
      exact .inl (by omega)
    · exact .inl (show round.overlap.stop ≤ a.stop by omega)
    · rw [hoverruns]
      rcases hrounds.high p hp with hle | ⟨hover, heq⟩
      · exact .inl (by omega)
      · rw [hoverStop (hoverruns.mpr hover)] at heq
        exact .inr ⟨hover, heq⟩
  · obtain ⟨p, hp, heq⟩ := hrounds.overrun (hoverruns.mp hover)
    refine ⟨p, ?_, by rw [heq, hoverStop hover]⟩
    rw [piecesOf_cons]
    exact mem_append_right _ (mem_cons_of_mem _ hp)
  · rw [map_cons, cons_append, mem_cons] at hp
    rcases hp with rfl | hp
    · rw [h.piece]
    · exact (hrounds.next_stop p hp).trans hrestHigh
  · rcases mem_cons.mp hr with rfl | hr
    · exact (h.before_range p hp).2.1
    · have hfirst := hrounds.before_start r hr p hp
      omega
  · rcases le_or_gt z b.stop with hle | hlt
    · have hend := h.passed z hz hle
      exact hrounds.rest_low z (fun q hq => lt_of_le_of_lt hend (hbehindLow q hq)) p hp
    · exact hrounds.passed z ((hrestMem z).mpr ⟨hz, by omega, hz.2.1⟩) p hp
  · rw [hrounds.rest_mem z (by omega), hoverruns, hlater z (by omega)]
    refine and_congr_right fun _ => not_congr (and_congr_right fun hover => ?_)
    rw [hoverStop (hoverruns.mpr hover)]

/-- By induction on the nodes that are split against `a`. -/
theorem splitRounds_spec (ha : a.Ok) (hbs : InOrder bs) :
    RoundsSpec a bs (splitRounds a bs).1 (splitRounds a bs).2.1 (splitRounds a bs).2.2 := by
  induction a, bs using splitRounds.induct with
  | case1 a =>
    rw [splitRounds]
    exact .stay ha hbs fun b hb => (not_mem_nil hb).elim
  | case2 a b bs hlt =>
    rw [splitRounds, if_pos hlt]
    refine .stay ha hbs fun c hc => ?_
    obtain ⟨hb, hapart, -⟩ := InOrder.cons_iff.mp hbs
    rcases mem_cons.mp hc with rfl | hc
    · exact hlt
    · have hle := hb.le
      have hnext := hapart c hc
      omega
  | case3 a b bs hge hlt ih =>
    rw [splitRounds, if_neg hge, if_pos hlt]
    exact .skip ha hlt (ih ha (InOrder.cons_iff.mp hbs).2.2)
  | case4 a b bs hge hge' aSplit bSplit hlt rounds rest bs' hsplit ih =>
    rw [splitRounds, if_neg hge, if_neg hge', if_pos hlt]
    have hb := (InOrder.cons_iff.mp hbs).1
    have hmeet := meeting ha hb (not_lt.mp hge) (not_lt.mp hge')
    obtain ⟨hrest, -⟩ := @nodeExtract_spec a ha (b.stop + 1) a.stop (by omega) ha.le (by omega)
    exact .more ha hbs (not_lt.mp hge') hlt hmeet (ih hrest (hmeet.behind_order hbs))
  | case5 a b bs hge hge' hle =>
    rw [splitRounds, if_neg hge, if_neg hge', if_neg hle]
    have hb := (InOrder.cons_iff.mp hbs).1
    have hmeet := meeting ha hb (not_lt.mp hge) (not_lt.mp hge')
    exact .last hbs (not_lt.mp hge) (not_lt.mp hle) hmeet

end ChibiScheme.IntegerSet
