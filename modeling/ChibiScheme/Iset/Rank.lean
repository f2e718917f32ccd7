import ChibiScheme.Iset.Refinement

/-!
# Sets as lists of nodes

The nodes of a set from left to right.  The order of the ranges, the integers and their list are all
told by this list, whatever the shape of the tree.
-/

namespace ChibiScheme.IntegerSet

open Iset List

variable {a : Node} {left right is : Iset} {x c : ℤ}

namespace Iset

/-- The nodes in order. -/
def nodes : Iset → List Node
  | absent => []
  | node a left right => left.nodes ++ a :: right.nodes

attribute [local simp] nodes in
theorem nodes_eq_nil_iff : is.nodes = [] ↔ is = absent := by
  cases is with
  | absent => exact iff_of_true rfl rfl
  | node a left right => simp [nodes]

theorem mem_iff_nodes : is.Mem x ↔ ∃ a ∈ is.nodes, a.Mem x := by
  induction is with
  | absent => simp [Iset.Mem, nodes]
  | node a left right ihleft ihright =>
    show a.Mem x ∨ left.Mem x ∨ right.Mem x ↔ _
    rw [ihleft, ihright]
    simp only [nodes, mem_append, mem_cons]
    constructor
    · rintro (hmem | ⟨b, hb, hmem⟩ | ⟨b, hb, hmem⟩)
      · exact ⟨a, .inr (.inl rfl), hmem⟩
      · exact ⟨b, .inl hb, hmem⟩
      · exact ⟨b, .inr (.inr hb), hmem⟩
    · rintro ⟨b, hb | rfl | hb, hmem⟩
      · exact .inr (.inl ⟨b, hb, hmem⟩)
      · exact .inl hmem
      · exact .inr (.inr ⟨b, hb, hmem⟩)

theorem forall_nodes_node {p : Node → Prop} : (∀ b ∈ (node a left right).nodes, p b) ↔
    (p a ∧ ∀ b ∈ left.nodes, p b) ∧ ∀ b ∈ right.nodes, p b := by
  simp only [nodes, List.forall_mem_append, List.forall_mem_cons, and_left_comm, and_assoc]

theorem endsBefore_iff_nodes : is.endsBefore c = true ↔ ∀ a ∈ is.nodes, a.stop < c := by
  induction is with
  | absent => simp [endsBefore, nodes]
  | node a left right ihleft ihright =>
    simp only [endsBefore, Bool.and_eq_true, decide_eq_true_eq, ihleft, ihright, forall_nodes_node]

theorem startsBehind_iff_nodes : is.startsBehind c = true ↔ ∀ a ∈ is.nodes, c < a.start := by
  induction is with
  | absent => simp [startsBehind, nodes]
  | node a left right ihleft ihright =>
    simp only [startsBehind, Bool.and_eq_true, decide_eq_true_eq, ihleft, ihright,
      forall_nodes_node]

end Iset

/-- The nodes of a list are in order: each range ends before the next ones start. -/
structure InOrder (nodes : List Node) : Prop where
  ok : ∀ a ∈ nodes, a.Ok
  pairwise : nodes.Pairwise fun a b => a.stop < b.start

theorem InOrder.nil : InOrder [] := ⟨fun _ h => (not_mem_nil h).elim, .nil⟩

theorem InOrder.cons_iff {nodes : List Node} :
    InOrder (a :: nodes) ↔ a.Ok ∧ (∀ b ∈ nodes, a.stop < b.start) ∧ InOrder nodes := by
  constructor
  · rintro ⟨hok, hpairwise⟩
    rw [pairwise_cons] at hpairwise
    exact ⟨hok a mem_cons_self, hpairwise.1,
      fun b hb => hok b (mem_cons_of_mem a hb), hpairwise.2⟩
  · rintro ⟨ha, hbefore, hok, hpairwise⟩
    refine ⟨fun b hb => ?_, pairwise_cons.mpr ⟨hbefore, hpairwise⟩⟩
    rcases mem_cons.mp hb with rfl | hb
    · exact ha
    · exact hok b hb

theorem InOrder.append_iff {front back : List Node} :
    InOrder (front ++ back) ↔
      InOrder front ∧ InOrder back ∧ ∀ a ∈ front, ∀ b ∈ back, a.stop < b.start := by
  constructor
  · rintro ⟨hok, hpairwise⟩
    obtain ⟨hfront, hback, hbetween⟩ := pairwise_append.mp hpairwise
    exact ⟨⟨fun b hb => hok b (mem_append_left _ hb), hfront⟩,
      ⟨fun b hb => hok b (mem_append_right _ hb), hback⟩, hbetween⟩
  · rintro ⟨hfront, hback, hbetween⟩
    refine ⟨fun b hb => ?_, pairwise_append.mpr ⟨hfront.pairwise, hback.pairwise, hbetween⟩⟩
    rcases mem_append.mp hb with hb | hb
    · exact hfront.ok b hb
    · exact hback.ok b hb

theorem Iset.ordered_iff_inOrder : is.Ordered ↔ InOrder is.nodes := by
  induction is with
  | absent => exact iff_of_true trivial .nil
  | node a left right ihleft ihright =>
    rw [nodes, InOrder.append_iff, InOrder.cons_iff]
    show a.Ok ∧ left.endsBefore a.start = true ∧ right.startsBehind a.stop = true ∧
      left.Ordered ∧ right.Ordered ↔ _
    rw [endsBefore_iff_nodes, startsBehind_iff_nodes, ihleft, ihright]
    constructor
    · rintro ⟨ha, hleft, hright, hleftOrder, hrightOrder⟩
      refine ⟨hleftOrder, ⟨ha, hright, hrightOrder⟩, fun b hb d hd => ?_⟩
      rcases mem_cons.mp hd with rfl | hd
      · exact hleft b hb
      · have hbefore := hleft b hb
        have hbehind := hright d hd
        have hle := ha.le
        omega
    · rintro ⟨hleftOrder, ⟨ha, hright, hrightOrder⟩, hbetween⟩
      exact ⟨ha, fun b hb => hbetween b hb a mem_cons_self, hright, hleftOrder,
        hrightOrder⟩

theorem Iset.inOrder_eq_flatMap (is : Iset) : is.inOrder = is.nodes.flatMap Node.toList := by
  induction is with
  | absent => rfl
  | node a left right ihleft ihright =>
    rw [inOrder, nodes, flatMap_append, flatMap_cons, ihleft, ihright, append_assoc]

theorem InOrder.pairwise_flatMap {nodes : List Node} (h : InOrder nodes) :
    (nodes.flatMap Node.toList).Pairwise (· < ·) := by
  induction nodes with
  | nil => exact .nil
  | cons a nodes ih =>
    obtain ⟨ha, hbefore, hnodes⟩ := InOrder.cons_iff.mp h
    rw [flatMap_cons, pairwise_append]
    refine ⟨toList_pairwise a, ih hnodes, fun y hy z hz => ?_⟩
    obtain ⟨b, hb, hz⟩ := List.mem_flatMap.mp hz
    have hy := ((mem_toList ha).mp hy).2.1
    have hz := ((mem_toList (hnodes.ok b hb)).mp hz).1
    have hlt := hbefore b hb
    omega

theorem InOrder.mem_flatMap {nodes : List Node} (h : InOrder nodes) :
    x ∈ nodes.flatMap Node.toList ↔ ∃ a ∈ nodes, a.Mem x := by
  rw [List.mem_flatMap]
  constructor
  · rintro ⟨a, ha, hx⟩
    exact ⟨a, ha, (mem_toList (h.ok a ha)).mp hx⟩
  · rintro ⟨a, ha, hx⟩
    exact ⟨a, ha, (mem_toList (h.ok a ha)).mpr hx⟩

/-! ## Rank and select

`iset-rank` finds the index of an integer of a set, `iset-select` the integer at an index.  For a range
without a bitmap the rank adds the bit length of the offset in place of the offset. -/

/-! ## The procedures -/

/-- `bit-rank`: the number of bits set below index `n`. -/
def bitRank (i : ℕ) (n : ℤ) : ℕ :=
  (i &&& (shift 1 n - 1)).bitIndices.length

/-- The loop of `iset-rank`.  Without a subtree to go on in, the integer is not in the set. -/
def rankLoop (element : ℤ) : Iset → ℤ → Option ℤ
  | absent, _ => none
  | node a left right, count =>
    if element < a.start then rankLoop element left count
    else if element > a.stop then rankLoop element right (count + (isetSize left + nodeSize a))
    else
      match a.bits with
      | some bits => some (count + isetSize left + bitRank bits (element - a.start))
      | none => some (count + isetSize left + (element - a.start).toNat.size)

/-- `iset-rank` -/
def isetRank (is : Iset) (element : ℤ) : Option ℤ :=
  rankLoop element is 0

/-- `first-set-bit` -/
def firstSetBit (i : ℕ) : ℤ :=
  if i = 0 then -1 else ((i - (i &&& (i - 1))).size : ℤ) - 1

/-- `nth-set-bit` -/
def nthSetBit (i : ℕ) : ℕ → ℤ
  | 0 => firstSetBit i
  | n + 1 => nthSetBit (i &&& (i - 1)) n

/-- The loop of `iset-select`.  There is no result if the index is out of range, or if the fuel is used
up first. -/
def selectLoop : ℕ → Iset → ℤ → List Iset → Option ℤ
  | 0, _, _, _ => none
  | fuel + 1, node a (node b l r) right, index, stack =>
    selectLoop fuel (node b l r) index (node a (node b l r) right :: stack)
  | fuel + 1, is, index, stack =>
    match (if is = absent then stack else is :: stack) with
    | node a _ right :: stack =>
      if index < nodeSize a then
        match a.bits with
        | some bits => some (a.start + nthSetBit bits index.toNat)
        | none => some (a.start + index)
      else if right ≠ absent then selectLoop fuel right (index - nodeSize a) stack
      else if stack ≠ [] then selectLoop fuel absent (index - nodeSize a) stack
      else none
    | _ => none

/-- `iset-select` -/
def isetSelect (is : Iset) (index : ℤ) : Option ℤ :=
  selectLoop (2 * is.nodes.length + 1) is index []

variable {a : Node} {left right is : Iset} {S : Finset ℤ} {e c : ℤ}

/-! ## Rank -/

theorem bitRank_eq (bits n : ℕ) :
    bitRank bits n = bits.bitIndices.countP fun i => decide (i < n) := by
  have hperm : (bits &&& (shift 1 (n : ℤ) - 1)).bitIndices.Perm
      (bits.bitIndices.filter fun i => decide (i < n)) := by
    rw [perm_ext_iff_of_nodup Nat.bitIndices_nodup (Nat.bitIndices_nodup.filter _)]
    intro i
    have hmask : shift 1 (n : ℤ) - 1 = 2 ^ n - 1 := by
      simp [shift, Nat.one_shiftLeft]
    rw [hmask, Nat.mem_bitIndices, mem_filter, Nat.mem_bitIndices, Nat.testBit_and,
      Nat.testBit_two_pow_sub_one, Bool.and_eq_true]
  rw [bitRank, hperm.length_eq, countP_eq_length_filter]

/-- The integers of a node below `e`. -/
def Node.below (a : Node) (e : ℤ) : ℕ := a.toList.countP fun y => decide (y < e)

/-- What the rank adds for the node that holds the integer. -/
def Node.rankIn (a : Node) (e : ℤ) : ℕ :=
  match a.bits with
  | some bits => bitRank bits (e - a.start)
  | none => (e - a.start).toNat.size

theorem size_le_self (n : ℕ) : n.size ≤ n :=
  Nat.size_le.mpr Nat.lt_two_pow_self

theorem size_eq_self_iff (n : ℕ) : n.size = n ↔ n ≤ 2 := by
  constructor
  · intro hsize
    by_contra hlarge
    have hle : n.size ≤ n - 1 := by
      rw [Nat.size_le]
      have hpow : ∀ k : ℕ, k + 3 < 2 ^ (k + 2) := by
        intro k
        induction k with
        | zero => decide
        | succ k ih =>
          rw [pow_succ]
          omega
      have hn := hpow (n - 3)
      rwa [show n - 3 + 3 = n by omega, show n - 3 + 2 = n - 1 by omega] at hn
    omega
  · intro hsmall
    obtain rfl | rfl | rfl : n = 0 ∨ n = 1 ∨ n = 2 := by omega
    · decide
    · decide
    · decide

theorem Node.rankIn_spec (hok : a.Ok) (hmem : a.Mem e) :
    a.rankIn e ≤ a.below e ∧ (a.rankIn e = a.below e ↔ (a.bits = none → e ≤ a.start + 2)) := by
  obtain ⟨start, stop, bits⟩ := a
  obtain ⟨hlow, hhigh, -⟩ := hmem
  obtain ⟨n, hn⟩ := Int.eq_ofNat_of_zero_le (sub_nonneg.mpr hlow)
  have he : e = start + n := by
    simp only at hn
    omega
  cases bits with
  | some bits =>
    have heq : Node.rankIn ⟨start, stop, some bits⟩ e = Node.below ⟨start, stop, some bits⟩ e := by
      simp only [rankIn, below, toList, hn]
      rw [bitRank_eq, countP_map]
      refine countP_congr fun i _ => ?_
      simp only [Function.comp, decide_eq_true_eq]
      omega
    exact ⟨le_of_eq heq, iff_of_true heq fun hnone => by cases hnone⟩
  | none =>
    have hbelow : Node.below ⟨start, stop, none⟩ e = n := by
      obtain ⟨k, hk⟩ : ∃ k, (stop + 1 - start).toNat = n + k :=
        ⟨(stop + 1 - start).toNat - n, by simp only at hhigh; omega⟩
      simp only [below, toList]
      rw [countP_map, hk, range_add, countP_append, countP_map]
      have hfront : (List.range n).countP ((fun y => decide (y < e)) ∘
          fun i : ℕ => start + (i : ℤ)) = n := by
        rw [countP_eq_length.mpr, length_range]
        intro i hi
        have hlt := mem_range.mp hi
        simp only [Function.comp, decide_eq_true_eq]
        omega
      have hback : (List.range k).countP (((fun y => decide (y < e)) ∘
          fun i : ℕ => start + (i : ℤ)) ∘ fun i => n + i) = 0 := by
        rw [countP_eq_zero]
        intro i _
        simp only [Function.comp, decide_eq_true_eq]
        omega
      rw [hfront, hback]
      rfl
    have hrank : Node.rankIn ⟨start, stop, none⟩ e = n.size := by
      simp only [rankIn, hn]
      rfl
    rw [hbelow, hrank, size_eq_self_iff]
    refine ⟨size_le_self n, ?_⟩
    simp only [true_implies]
    omega

/-- The node that holds the integer has a bitmap, or the integer is one of its first three. -/
def RankHolds (is : Iset) (e : ℤ) : Prop :=
  ∀ a ∈ is.nodes, a.Mem e → a.bits = none → e ≤ a.start + 2

/-- The loop counts at most the smaller members. -/
theorem rankLoop_spec (hordered : is.Ordered) (hmem : is.Mem e) (count : ℤ) :
    ∃ k : ℕ, rankLoop e is count = some (count + k) ∧
      k ≤ is.inOrder.countP (fun y => decide (y < e)) ∧
      (k = is.inOrder.countP (fun y => decide (y < e)) ↔ RankHolds is e) := by
  induction is generalizing count with
  | absent => cases hmem
  | node a left right ihleft ihright =>
    obtain ⟨hok, hleft, hright, hleftOrder, hrightOrder⟩ := hordered
    have hle := hok.le
    have hleftLt : ∀ y, left.Mem y → y < a.start := fun y => lt_of_endsBefore hleft
    have hrightLt : ∀ y, right.Mem y → a.stop < y := fun y => lt_of_startsBehind hright
    have hleftList : ∀ y ∈ left.inOrder, y < a.start := fun y hy =>
      hleftLt y ((mem_inOrder hleftOrder).mp hy)
    have hrightList : ∀ y ∈ right.inOrder, a.stop < y := fun y hy =>
      hrightLt y ((mem_inOrder hrightOrder).mp hy)
    have hlist : ∀ y ∈ a.toList, a.start ≤ y ∧ y ≤ a.stop := fun y hy =>
      have h := (mem_toList hok).mp hy
      ⟨h.1, h.2.1⟩
    have hnodes : RankHolds (node a left right) e ↔
        RankHolds left e ∧ (a.Mem e → a.bits = none → e ≤ a.start + 2) ∧ RankHolds right e := by
      simp only [RankHolds, nodes, mem_append, mem_cons, or_imp, forall_and, forall_eq]
    have hnone : ∀ {is : Iset}, ¬ is.Mem e → RankHolds is e := fun hnot b hb he =>
      absurd (mem_iff_nodes.mpr ⟨b, hb, he⟩) hnot
    have hzero : ∀ l : List ℤ, (∀ y ∈ l, e ≤ y) → l.countP (fun y => decide (y < e)) = 0 := by
      intro l hl
      rw [countP_eq_zero]
      intro y hy
      have hge := hl y hy
      simpa using hge
    have hall : ∀ l : List ℤ, (∀ y ∈ l, y < e) →
        l.countP (fun y => decide (y < e)) = l.length := by
      intro l hl
      rw [countP_eq_length]
      intro y hy
      simpa using hl y hy
    rw [inOrder, countP_append, countP_append, rankLoop, hnodes,
      isetSize_eq hleftOrder, nodeSize_eq hok]
    split
    · -- the element is in the left subtree, and nothing to the right counts
      rename_i hlt
      have hnode : ¬ a.Mem e := fun h => absurd h.1 (not_le.mpr hlt)
      have hnotRight : ¬ right.Mem e := fun h => by
        have hgt := hrightLt e h
        omega
      have hinLeft : left.Mem e := by
        rcases hmem with hmem | hmem | hmem
        · exact absurd hmem hnode
        · exact hmem
        · exact absurd hmem hnotRight
      rw [hzero a.toList fun y hy => by have h := hlist y hy; omega,
        hzero right.inOrder fun y hy => by have h := hrightList y hy; omega]
      obtain ⟨k, hrun, hk, hiff⟩ := ihleft hleftOrder hinLeft count
      refine ⟨k, hrun, hk, hiff.trans ?_⟩
      exact ⟨fun h => ⟨h, fun he => absurd he hnode, hnone hnotRight⟩, fun h => h.1⟩
    split
    · -- in the right subtree, behind all of the node and what is left of it
      rename_i hge hgt
      have hnode : ¬ a.Mem e := fun h => absurd h.2.1 (not_le.mpr hgt)
      have hnotLeft : ¬ left.Mem e := fun h => hge (hleftLt e h)
      have hinRight : right.Mem e := (hmem.resolve_left hnode).resolve_left hnotLeft
      rw [hall left.inOrder fun y hy => by have h := hleftList y hy; omega,
        hall a.toList fun y hy => by have h := hlist y hy; omega]
      obtain ⟨k, hrun, hk, hiff⟩ := ihright hrightOrder hinRight
        (count + (left.inOrder.length + a.toList.length))
      refine ⟨left.inOrder.length + a.toList.length + k, ?_, by omega, ?_⟩
      · rw [hrun]
        push_cast
        congr 1
        ring
      · rw [Nat.add_left_cancel_iff, hiff]
        exact ⟨fun h => ⟨hnone hnotLeft, fun he => absurd he hnode, h⟩, fun h => h.2.2⟩
    · -- in the node itself, where the count of a range is short by two behind its third member
      rename_i hlow hhigh
      have hnotLeft : ¬ left.Mem e := fun h => hlow (hleftLt e h)
      have hnotRight : ¬ right.Mem e := fun h => hhigh (hrightLt e h)
      have hnode : a.Mem e := by
        rcases hmem with hmem | hmem | hmem
        · exact hmem
        · exact absurd hmem hnotLeft
        · exact absurd hmem hnotRight
      obtain ⟨hk, hiff⟩ := Node.rankIn_spec hok hnode
      rw [hall left.inOrder fun y hy => by have h := hleftList y hy; omega,
        hzero right.inOrder fun y hy => by have h := hrightList y hy; omega]
      refine ⟨left.inOrder.length + a.rankIn e, ?_, ?_, ?_⟩
      · obtain ⟨start, stop, bits⟩ := a
        cases bits with
        | some bits => simp only [Node.rankIn, Nat.cast_add, add_assoc]
        | none => simp only [Node.rankIn, Nat.cast_add, add_assoc]
      · show _ ≤ left.inOrder.length + a.below e + 0
        omega
      · show _ = left.inOrder.length + a.below e + 0 ↔ _
        rw [add_zero, Nat.add_left_cancel_iff, hiff]
        exact ⟨fun h => ⟨hnone hnotLeft, fun _ => h, hnone hnotRight⟩,
          fun h => h.2.1 hnode⟩

/-! ## Select -/

theorem nthSetBit_eq {bits n : ℕ} (hn : n < bits.bitIndices.length) :
    nthSetBit bits n = (bits.bitIndices[n] : ℕ) := by
  have hnonzero : ∀ {i m : ℕ}, m < i.bitIndices.length → i ≠ 0 := by
    rintro i m hm rfl
    simp at hm
  induction n generalizing bits with
  | zero =>
    obtain ⟨k, hindices, hsub⟩ := Bits.bitIndices_eq_cons (hnonzero hn)
    rw [nthSetBit, firstSetBit, if_neg (hnonzero hn), hsub, Nat.size_pow]
    simp [hindices]
  | succ n ih =>
    obtain ⟨k, hindices, -⟩ := Bits.bitIndices_eq_cons (hnonzero hn)
    have hrest : n < (bits &&& (bits - 1)).bitIndices.length := by
      rw [hindices, length_cons] at hn
      omega
    rw [nthSetBit, ih hrest]
    simp [hindices]

/-- The nodes that are still to come: the current subtree, and each node of the stack with what is to
its right. -/
def pending (is : Iset) (stack : List Iset) : List Node :=
  is.nodes ++ stack.flatMap fun is =>
    match is with
    | absent => []
    | node a _ right => a :: right.nodes

/-- How many rounds the loop may still take. -/
def rounds (is : Iset) (stack : List Iset) : ℕ :=
  2 * is.nodes.length + (stack.map fun is =>
    match is with
    | absent => 0
    | node _ _ right => 2 * right.nodes.length + 1).sum

theorem selectIn_eq {index : ℕ} (hok : a.Ok) (hindex : index < a.toList.length) :
    (match a.bits with
      | some bits => some (a.start + nthSetBit bits index)
      | none => some (a.start + index)) = a.toList[index]? := by
  obtain ⟨start, stop, bits⟩ := a
  cases bits with
  | some bits =>
    simp only [Node.toList, length_map] at hindex ⊢
    rw [nthSetBit_eq hindex, getElem?_map, getElem?_eq_getElem hindex]
    rfl
  | none =>
    simp only [Node.toList, length_map, length_range] at hindex ⊢
    rw [getElem?_map, getElem?_range hindex]
    rfl

/-- The loop finds the member at the index. -/
theorem selectLoop_spec {fuel : ℕ} {is : Iset} {index : ℕ} {stack : List Iset}
    (hok : ∀ a ∈ pending is stack, a.Ok) (hstack : absent ∉ stack)
    (hindex : index < ((pending is stack).flatMap Node.toList).length)
    (hfuel : rounds is stack < fuel) :
    selectLoop fuel is index stack = ((pending is stack).flatMap Node.toList)[index]? := by
  induction fuel generalizing is index stack with
  | zero => exact absurd hfuel (Nat.not_lt_zero _)
  | succ fuel ih =>
    -- a round that looks into the node `a`, with `right` and `stack` still to come
    have hnode : ∀ (a : Node) (right : Iset) (stack : List Iset) (index : ℕ),
        (∀ b ∈ a :: pending right stack, b.Ok) → absent ∉ stack →
        index < ((a :: pending right stack).flatMap Node.toList).length →
        rounds right stack < fuel →
        (if (index : ℤ) < nodeSize a then
          match a.bits with
          | some bits => some (a.start + nthSetBit bits (index : ℤ).toNat)
          | none => some (a.start + index)
        else if right ≠ absent then selectLoop fuel right (index - nodeSize a) stack
        else if stack ≠ [] then selectLoop fuel absent (index - nodeSize a) stack
        else none) = ((a :: pending right stack).flatMap Node.toList)[index]? := by
      intro a right stack index hok hstack hindex hfuel
      have ha := hok a mem_cons_self
      rw [flatMap_cons, length_append] at hindex
      rw [nodeSize_eq ha, Int.toNat_natCast, flatMap_cons]
      by_cases hinside : index < a.toList.length
      · rw [if_pos (by exact_mod_cast hinside), selectIn_eq ha hinside,
          getElem?_append_left hinside]
      · have hrest : index - a.toList.length <
            ((pending right stack).flatMap Node.toList).length := by
          omega
        have hsub : (index : ℤ) - a.toList.length = ((index - a.toList.length : ℕ) : ℤ) := by
          omega
        have hrun := ih (fun b hb => hok b (mem_cons_of_mem a hb)) hstack hrest hfuel
        rw [if_neg (by exact_mod_cast hinside), hsub,
          getElem?_append_right (not_lt.mp hinside)]
        by_cases hright : right = absent
        · subst hright
          rw [if_neg (not_not.mpr rfl)]
          have hnonempty : stack ≠ [] := by
            rintro rfl
            simp [pending, nodes] at hrest
          rw [if_pos hnonempty, hrun]
        · rw [if_pos hright, hrun]
    match is, stack with
    | node a (node b l r) right, stack =>
      have hpending : pending (node b l r) (node a (node b l r) right :: stack) =
          pending (node a (node b l r) right) stack := by
        simp [pending, nodes]
      rw [selectLoop, ← hpending]
      rw [← hpending] at hok hindex
      refine ih hok (by simpa using hstack) hindex ?_
      simp only [rounds, nodes, length_append, length_cons, map_cons, sum_cons] at hfuel ⊢
      omega
    | node a absent right, stack =>
      have hpending : pending (node a absent right) stack = a :: pending right stack := by
        simp [pending, nodes]
      rw [hpending] at hok hindex ⊢
      refine hnode a right stack index hok hstack hindex ?_
      simp only [rounds, nodes, length_append, length_cons, length_nil] at hfuel ⊢
      omega
    | absent, [] => simp [pending, nodes] at hindex
    | absent, absent :: stack => exact absurd mem_cons_self hstack
    | absent, node a left right :: stack =>
      have hpending : pending absent (node a left right :: stack) =
          a :: pending right stack := by
        simp [pending, nodes]
      rw [hpending] at hok hindex ⊢
      refine hnode a right stack index hok (fun h => hstack (mem_cons_of_mem _ h))
        hindex ?_
      simp only [rounds, nodes, length_nil, map_cons, sum_cons] at hfuel ⊢
      omega

theorem isetSelect_eq (hordered : is.Ordered) {index : ℕ} (hindex : index < is.inOrder.length) :
    isetSelect is index = is.inOrder[index]? := by
  have hpending : pending is [] = is.nodes := by simp [pending]
  have hnodes := (ordered_iff_inOrder.mp hordered).ok
  rw [inOrder_eq_flatMap] at hindex ⊢
  rw [← hpending] at hnodes hindex ⊢
  refine selectLoop_spec hnodes not_mem_nil hindex ?_
  simp [rounds]

/-! ## On finite sets -/

theorem Represents.inOrder_eq (h : Represents is S) : is.inOrder = S.sort := by
  refine List.Pairwise.eq_of_mem_iff (inOrder_pairwise h.ordered) S.sortedLT_sort.pairwise ?_
  intro x
  rw [mem_inOrder h.ordered, h.mem, Finset.mem_sort]

theorem countP_lt_getElem {l : List ℤ} (h : l.Pairwise (· < ·)) {i : ℕ} (hi : i < l.length) :
    l.countP (fun y => decide (y < l[i])) = i := by
  have hsplit : l = l.take i ++ l[i] :: l.drop (i + 1) := by
    rw [getElem_cons_drop, take_append_drop]
  have hpairwise := h
  rw [hsplit, pairwise_append, pairwise_cons] at hpairwise
  have hfront : (l.take i).countP (fun y => decide (y < l[i])) = i := by
    rw [countP_eq_length.mpr, length_take, Nat.min_eq_left hi.le]
    intro y hy
    simpa using hpairwise.2.2 y hy _ mem_cons_self
  have hback : (l[i] :: l.drop (i + 1)).countP (fun y => decide (y < l[i])) = 0 := by
    rw [countP_eq_zero]
    intro y hy
    rcases mem_cons.mp hy with rfl | hy
    · simp
    · simpa using (hpairwise.2.1.1 y hy).le
  calc l.countP (fun y => decide (y < l[i]))
      = (l.take i ++ l[i] :: l.drop (i + 1)).countP (fun y => decide (y < l[i])) := by
        rw [← hsplit]
    _ = i := by rw [countP_append, hfront, hback, add_zero]

theorem Represents.countP_lt (h : Represents is S) (e : ℤ) :
    is.inOrder.countP (fun y => decide (y < e)) = (S.filter (· < e)).card := by
  have hnodup : is.inOrder.Nodup := (inOrder_pairwise h.ordered).imp fun hlt => ne_of_lt hlt
  have heq : (is.inOrder.filter fun y => decide (y < e)).toFinset = S.filter (· < e) := by
    ext x
    rw [mem_toFinset, mem_filter, mem_inOrder h.ordered, h.mem, Finset.mem_filter,
      decide_eq_true_eq]
  rw [countP_eq_length_filter, ← heq, toFinset_card_of_nodup (hnodup.filter _)]

/-- `iset-select` finds the integer at every index; the rank of an integer is the number of smaller
ones where its node has a bitmap or it is one of the first three of its range, and only where this is
so for every integer are the two inverse to each other. -/
theorem isetRank_isetSelect_iff (h : Represents is S) :
    (∀ e ∈ S, isetRank is e = some ((S.filter (· < e)).card : ℤ) ↔ RankHolds is e) ∧
    (∀ (i : ℕ) (hi : i < S.card), isetSelect is i = some (S.orderEmbOfFin rfl ⟨i, hi⟩)) ∧
    ((∀ e ∈ S, ∃ i, isetRank is e = some i ∧ isetSelect is i = some e) ↔
      ∀ e ∈ S, RankHolds is e) := by
  have hrank : ∀ e ∈ S, ∃ k : ℕ, isetRank is e = some (k : ℤ) ∧
      k ≤ (S.filter (· < e)).card ∧ (k = (S.filter (· < e)).card ↔ RankHolds is e) := by
    intro e he
    obtain ⟨k, hrun, hk⟩ := rankLoop_spec h.ordered ((h.mem e).mpr he) 0
    rw [h.countP_lt] at hk
    exact ⟨k, by rw [isetRank, hrun, zero_add], hk⟩
  have hselect : ∀ (i : ℕ) (hi : i < S.card),
      isetSelect is i = some (S.orderEmbOfFin rfl ⟨i, hi⟩) := by
    intro i hi
    have hindex : i < is.inOrder.length := by rwa [h.length_inOrder]
    rw [isetSelect_eq h.ordered hindex, getElem?_eq_getElem hindex, Finset.orderEmbOfFin_apply]
    simp only [h.inOrder_eq, Fin.getElem_fin]
  -- the integer at an index has as many smaller ones
  have hindex : ∀ (i : ℕ) (hi : i < S.card),
      (S.filter (· < S.orderEmbOfFin rfl ⟨i, hi⟩)).card = i := by
    intro i hi
    have hlength : i < S.sort.length := by rwa [Finset.length_sort]
    rw [← h.countP_lt, h.inOrder_eq, Finset.orderEmbOfFin_apply]
    exact countP_lt_getElem S.sortedLT_sort.pairwise hlength
  refine ⟨fun e he => ?_, hselect, fun hinverse e he => ?_, fun hholds e he => ?_⟩
  · obtain ⟨k, hrun, -, hiff⟩ := hrank e he
    rw [hrun, ← hiff, Option.some.injEq, Nat.cast_inj]
  · obtain ⟨k, hrun, hle, hiff⟩ := hrank e he
    obtain ⟨i, hrun', hfound⟩ := hinverse e he
    rw [hrun] at hrun'
    cases hrun'
    have hlt : (S.filter (· < e)).card < S.card :=
      Finset.card_lt_card (Finset.filter_ssubset.mpr ⟨e, he, lt_irrefl e⟩)
    rw [hselect k (by omega), Option.some.injEq] at hfound
    rw [← hiff, ← hfound, hindex]
  · obtain ⟨k, hrun, hle, hiff⟩ := hrank e he
    have hk := hiff.mpr (hholds e he)
    have hlt : (S.filter (· < e)).card < S.card :=
      Finset.card_lt_card (Finset.filter_ssubset.mpr ⟨e, he, lt_irrefl e⟩)
    refine ⟨k, hrun, ?_⟩
    rw [hselect k (by omega), Option.some.injEq]
    -- two integers with as many smaller ones are the same
    obtain ⟨j, hj⟩ : ∃ j, S.orderEmbOfFin rfl j = e := by
      have hrange := Finset.range_orderEmbOfFin S (rfl : S.card = S.card)
      have hmem : e ∈ Set.range (S.orderEmbOfFin rfl) := by rw [hrange]; exact he
      exact hmem
    have hcount := hindex j.val j.isLt
    rw [show (⟨j.val, j.isLt⟩ : Fin S.card) = j from rfl, hj] at hcount
    have heq : (⟨k, by omega⟩ : Fin S.card) = j := Fin.ext (by simp only; omega)
    rw [heq, hj]

/-- The same for bitmaps, below one another. -/
theorem isetRank_isetSelect_cutAtFour :
    (∀ e ∈ ({0, 4, 5, 9} : Finset ℤ), ∃ i, isetRank cutAtFour e = some i ∧
      isetSelect cutAtFour i = some e) ↔ ∀ e ∈ ({0, 4, 5, 9} : Finset ℤ), RankHolds cutAtFour e :=
  (isetRank_isetSelect_iff cutAtFour_represents).2.2

/-- In the set of the integers from 0 to 5 the rank of 3 is found to be 2. -/
theorem isetRank_offset : Represents (makeRange 0 5) (Finset.Icc 0 5) ∧
    isetRank (makeRange 0 5) 3 = some 2 ∧ ((Finset.Icc (0 : ℤ) 5).filter (· < 3)).card = 3 :=
  ⟨makeRange_represents (by decide), by decide, by decide⟩

end ChibiScheme.IntegerSet
