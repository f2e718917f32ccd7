import ChibiScheme.Iset.Rank

/-!
# Cursors

A cursor stands on an integer of a set: it holds a node, what is left of the bitmap of the node or a
position in its range, and the stack of the nodes whose left subtree it is in.  Equality and inclusion
of sets go through two of them with cursors.
-/

namespace ChibiScheme.IntegerSet

open Iset List Option

/-- `Iset-Cursor`.  Of a node, here and in the stack, only the fields and the right subtree are read
once its left subtree was entered. -/
structure Cursor where
  node : Node
  right : Iset
  pos : ℤ
  stack : List (Node × Iset)

namespace Cursor

/-- The test of `iset-cursor-advance`: nothing is left of the node. -/
def exhausted (cur : Cursor) : Bool :=
  if cur.node.bits.isSome then decide (cur.pos = 0) else decide (cur.pos > cur.node.stop)

/-- How many rounds it may take to find the next integer in the subtrees and nodes to come. -/
def roundsOf (stack : List (Node × Iset)) : ℕ :=
  (stack.map fun entry => 2 * entry.2.nodes.length + 1).sum

mutual

/-- `iset-cursor` -/
def isetCursor (a : Node) (left right : Iset) (stack : List (Node × Iset)) : Cursor :=
  match left with
  | .node b l r => isetCursor b l r ((a, right) :: stack)
  | .absent => nodeCursor a right stack
termination_by (2 * (left.nodes.length + right.nodes.length + 1) + roundsOf stack, 0)
decreasing_by
  · apply Prod.Lex.left
    simp only [roundsOf, nodes, map_cons, sum_cons, length_append, length_cons]
    omega
  · apply Prod.Lex.left
    simp only [nodes, length_nil]
    omega

/-- `%iset-cursor` -/
def nodeCursor (a : Node) (right : Iset) (stack : List (Node × Iset)) : Cursor :=
  let pos : ℤ :=
    match a.bits with
    | some bits => bits
    | none => a.start
  advance ⟨a, right, pos, stack⟩
termination_by (2 * right.nodes.length + 1 + roundsOf stack, 2)
decreasing_by
  apply Prod.Lex.right
  decide

/-- `iset-cursor-advance` -/
def advance (cur : Cursor) : Cursor :=
  if cur.exhausted then pop cur else cur
termination_by (2 * cur.right.nodes.length + 1 + roundsOf cur.stack, 1)
decreasing_by
  apply Prod.Lex.right
  decide

/-- `iset-cursor-pop` -/
def pop : Cursor → Cursor
  | ⟨_, .node b l r, _, stack⟩ => isetCursor b l r stack
  | ⟨_, .absent, _, (a, right) :: stack⟩ => nodeCursor a right stack
  | ⟨a, .absent, pos, []⟩ => ⟨a, .absent, pos, []⟩
termination_by cur => (2 * cur.right.nodes.length + 1 + roundsOf cur.stack, 0)
decreasing_by
  · apply Prod.Lex.left
    simp only [nodes, length_append, length_cons]
    omega
  · apply Prod.Lex.left
    simp only [roundsOf, nodes, length_nil, map_cons, sum_cons]
    omega

end

/-- `iset-cursor-next` -/
def next (cur : Cursor) : Cursor :=
  let pos : ℤ :=
    if cur.node.bits.isSome then ((cur.pos.toNat &&& (cur.pos.toNat - 1) : ℕ) : ℤ) else cur.pos + 1
  advance { cur with pos := pos }

/-- `iset-ref`.  There is no result behind the last integer. -/
def ref (cur : Cursor) : Option ℤ :=
  if cur.node.bits.isSome then
    if cur.pos = 0 then none
    else
      let bit := cur.pos.toNat - (cur.pos.toNat &&& (cur.pos.toNat - 1))
      some (cur.node.start + bit.size + -1)
  else if cur.pos > cur.node.stop then none
  else some cur.pos

/-- `end-of-iset?` -/
def endOfIset (cur : Cursor) : Bool :=
  cur.exhausted && decide (cur.right = absent) && decide (cur.stack = [])

/-- Stepping through a set: `iset-ref` of every cursor up to `end-of-iset?`.  There is no result if the
fuel is used up first. -/
def elementsFrom : ℕ → Cursor → Option (List ℤ)
  | 0, _ => none
  | fuel + 1, cur =>
    if cur.endOfIset then some []
    else do
      let i ← cur.ref
      let is ← elementsFrom fuel cur.next
      some (i :: is)

/-- The loop of `iset2=`. -/
def equalLoop : ℕ → Cursor → Cursor → Option Bool
  | 0, _, _ => none
  | fuel + 1, cur1, cur2 =>
    if cur1.endOfIset then some cur2.endOfIset
    else if cur2.endOfIset then some false
    else do
      let i1 ← cur1.ref
      let i2 ← cur2.ref
      if i1 = i2 then equalLoop fuel cur1.next cur2.next else some false

/-- The loop of `iset2<=`. -/
def subsetLoop : ℕ → Cursor → Cursor → Option Bool
  | 0, _, _ => none
  | fuel + 1, cur1, cur2 =>
    if cur1.endOfIset then some true
    else if cur2.endOfIset then some false
    else do
      let i1 ← cur1.ref
      let i2 ← cur2.ref
      if i1 > i2 then subsetLoop fuel cur1 cur2.next
      else if i1 = i2 then subsetLoop fuel cur1.next cur2.next
      -- `i1` does not come in the second set any more
      else some false

end Cursor

/-- `(iset-cursor is)`; `#f` is no set. -/
def Iset.cursor : Iset → Option Cursor
  | absent => none
  | node a left right => some (Cursor.isetCursor a left right [])

/-- Two sets are gone through by one of the loops. -/
def compareWith (loop : ℕ → Cursor → Cursor → Option Bool) (is1 is2 : Iset) : Option Bool := do
  let cur1 ← is1.cursor
  let cur2 ← is2.cursor
  loop ((isetSize is1).toNat + (isetSize is2).toNat + 1) cur1 cur2

/-- `iset2=` -/
def iset2Equal : Iset → Iset → Option Bool := compareWith Cursor.equalLoop

/-- `iset2<=` -/
def iset2Subset : Iset → Iset → Option Bool := compareWith Cursor.subsetLoop

/-- The loop of `iset=` and `iset<=`: each set is compared with the next one. -/
def compareAll (compare : Iset → Iset → Option Bool) (a : Iset) : List Iset → Option Bool
  | [] => some true
  | b :: ls => do
      if ← compare a b then compareAll compare b ls else some false

/-- `iset=` -/
def isetEqual : List Iset → Option Bool
  | [] => some true
  | a :: ls => compareAll iset2Equal a ls

/-- `iset<=` -/
def isetSubset : List Iset → Option Bool
  | [] => some true
  | a :: ls => compareAll iset2Subset a ls

/-! ## What is still to come -/

namespace Cursor

/-- The integers of the stack: those of each node and behind it. -/
def stackList (stack : List (Node × Iset)) : List ℤ :=
  stack.flatMap fun entry => entry.1.toList ++ entry.2.inOrder

/-- What is left of the current node. -/
def here (cur : Cursor) : List ℤ :=
  if cur.node.bits.isSome then
    cur.pos.toNat.bitIndices.map fun i : ℕ => cur.node.start + i
  else
    (List.range (cur.node.stop + 1 - cur.pos).toNat).map fun i : ℕ => cur.pos + i

/-- What the cursor has still to visit. -/
def rest (cur : Cursor) : List ℤ :=
  cur.here ++ (cur.right.inOrder ++ stackList cur.stack)

/-- A cursor whose node is used up is at the end, and a bitmap is not negative. -/
structure Settled (cur : Cursor) : Prop where
  nonneg : cur.node.bits.isSome → 0 ≤ cur.pos
  atEnd : cur.exhausted = true → cur.right = absent ∧ cur.stack = []

variable {cur : Cursor} {a : Node} {left right : Iset} {stack : List (Node × Iset)}

theorem exhausted_iff (hnonneg : cur.node.bits.isSome → 0 ≤ cur.pos) :
    cur.exhausted = true ↔ cur.here = [] := by
  unfold exhausted here
  split
  · rename_i hbits
    have hpos := hnonneg hbits
    rw [decide_eq_true_eq, map_eq_nil_iff]
    constructor
    · intro hzero
      rw [hzero]
      rfl
    · intro hnil
      by_contra hzero
      obtain ⟨k, hcons, -⟩ := Bits.bitIndices_eq_cons (n := cur.pos.toNat) (by omega)
      rw [hcons] at hnil
      cases hnil
  · rw [decide_eq_true_eq, map_eq_nil_iff, range_eq_nil]
    omega

mutual

theorem isetCursor_spec (a : Node) (left right : Iset) (stack : List (Node × Iset)) :
    (isetCursor a left right stack).Settled ∧ (isetCursor a left right stack).rest =
      left.inOrder ++ a.toList ++ right.inOrder ++ stackList stack := by
  match left with
  | .node b l r =>
    rw [isetCursor]
    obtain ⟨hsettled, hrest⟩ := isetCursor_spec b l r ((a, right) :: stack)
    refine ⟨hsettled, hrest.trans ?_⟩
    simp [stackList, inOrder]
  | .absent =>
    rw [isetCursor]
    obtain ⟨hsettled, hrest⟩ := nodeCursor_spec a right stack
    refine ⟨hsettled, hrest.trans ?_⟩
    simp [inOrder]
termination_by (2 * (left.nodes.length + right.nodes.length + 1) + roundsOf stack, 0)
decreasing_by
  · apply Prod.Lex.left
    simp only [roundsOf, nodes, map_cons, sum_cons, length_append, length_cons]
    omega
  · apply Prod.Lex.left
    simp only [nodes, length_nil]
    omega

theorem nodeCursor_spec (a : Node) (right : Iset) (stack : List (Node × Iset)) :
    (nodeCursor a right stack).Settled ∧ (nodeCursor a right stack).rest =
      a.toList ++ right.inOrder ++ stackList stack := by
  rw [nodeCursor]
  cases hbits : a.bits with
  | some bits =>
    obtain ⟨hsettled, hrest⟩ := advance_spec ⟨a, right, bits, stack⟩ fun _ => Int.natCast_nonneg _
    refine ⟨hsettled, hrest.trans ?_⟩
    simp [rest, here, Node.toList, hbits]
  | none =>
    obtain ⟨hsettled, hrest⟩ := advance_spec ⟨a, right, a.start, stack⟩ (by simp [hbits])
    refine ⟨hsettled, hrest.trans ?_⟩
    simp [rest, here, Node.toList, hbits]
termination_by (2 * right.nodes.length + 1 + roundsOf stack, 2)
decreasing_by
  · apply Prod.Lex.right
    decide
  · apply Prod.Lex.right
    decide

theorem advance_spec (cur : Cursor) (hnonneg : cur.node.bits.isSome → 0 ≤ cur.pos) :
    (advance cur).Settled ∧ (advance cur).rest = cur.rest := by
  rw [advance]
  split
  · rename_i hexhausted
    obtain ⟨hsettled, hrest⟩ := pop_spec cur hnonneg hexhausted
    refine ⟨hsettled, hrest.trans ?_⟩
    rw [rest, (exhausted_iff hnonneg).mp hexhausted, nil_append]
  · rename_i hmore
    exact ⟨⟨hnonneg, fun h => absurd h hmore⟩, rfl⟩
termination_by (2 * cur.right.nodes.length + 1 + roundsOf cur.stack, 1)
decreasing_by
  apply Prod.Lex.right
  decide

theorem pop_spec (cur : Cursor) (hnonneg : cur.node.bits.isSome → 0 ≤ cur.pos)
    (hexhausted : cur.exhausted = true) :
    (pop cur).Settled ∧ (pop cur).rest = cur.right.inOrder ++ stackList cur.stack := by
  match cur with
  | ⟨_, .node b l r, _, stack⟩ =>
    rw [pop]
    exact isetCursor_spec b l r stack
  | ⟨_, .absent, _, (a, right) :: stack⟩ =>
    rw [pop]
    obtain ⟨hsettled, hrest⟩ := nodeCursor_spec a right stack
    refine ⟨hsettled, hrest.trans ?_⟩
    simp [stackList, inOrder]
  | ⟨a, .absent, pos, []⟩ =>
    rw [pop]
    refine ⟨⟨hnonneg, fun _ => ⟨rfl, rfl⟩⟩, ?_⟩
    rw [rest, (exhausted_iff hnonneg).mp hexhausted, nil_append]
termination_by (2 * cur.right.nodes.length + 1 + roundsOf cur.stack, 0)
decreasing_by
  · apply Prod.Lex.left
    simp only [nodes, length_append, length_cons]
    omega
  · apply Prod.Lex.left
    simp only [roundsOf, nodes, length_nil, map_cons, sum_cons]
    omega

end

theorem Settled.endOfIset_iff (h : cur.Settled) : cur.endOfIset = true ↔ cur.rest = [] := by
  unfold endOfIset rest
  rw [Bool.and_eq_true, Bool.and_eq_true, decide_eq_true_eq, decide_eq_true_eq,
    exhausted_iff h.nonneg]
  constructor
  · rintro ⟨⟨hhere, hright⟩, hstack⟩
    rw [hhere, hright, hstack]
    rfl
  · intro hnil
    have hhere := (append_eq_nil_iff.mp hnil).1
    obtain ⟨hright, hstack⟩ := h.atEnd ((exhausted_iff h.nonneg).mpr hhere)
    exact ⟨⟨hhere, hright⟩, hstack⟩

theorem Settled.next (h : cur.Settled) (hmore : cur.endOfIset = false) :
    ∃ i, cur.ref = some i ∧ cur.rest = i :: cur.next.rest ∧ cur.next.Settled := by
  have hhere : cur.here ≠ [] := by
    intro hnil
    have hatEnd := h.atEnd ((exhausted_iff h.nonneg).mpr hnil)
    have hend : cur.endOfIset = true := by
      rw [h.endOfIset_iff, rest, hnil, hatEnd.1, hatEnd.2]
      rfl
    rw [hend] at hmore
    cases hmore
  obtain ⟨a, right, pos, stack⟩ := cur
  cases hbits : a.bits with
  | some bits =>
    have hzero : pos.toNat ≠ 0 := by
      intro hzero
      simp [here, hbits, hzero] at hhere
    obtain ⟨k, hcons, hsub⟩ := Bits.bitIndices_eq_cons hzero
    obtain ⟨hsettled, hrest⟩ := advance_spec
      ⟨a, right, ((pos.toNat &&& (pos.toNat - 1) : ℕ) : ℤ), stack⟩ fun _ => Int.natCast_nonneg _
    refine ⟨a.start + k, ?_, ?_, ?_⟩
    · have hne : pos ≠ 0 := by omega
      simp only [ref, hbits, isSome_some, if_true, if_neg hne, hsub, Nat.size_pow]
      congr 1
      push_cast
      ring
    · simp only [Cursor.next, hbits, isSome_some, if_true]
      rw [hrest]
      simp [rest, here, hbits, hcons]
    · simpa only [Cursor.next, hbits, isSome_some, if_true] using hsettled
  | none =>
    have hle : pos ≤ a.stop := by
      by_contra hgt
      have hcount : (a.stop + 1 - pos).toNat = 0 := by omega
      simp [here, hbits, hcount] at hhere
    obtain ⟨hsettled, hrest⟩ := advance_spec ⟨a, right, pos + 1, stack⟩ (by simp [hbits])
    refine ⟨pos, ?_, ?_, ?_⟩
    · simp [ref, hbits, not_lt.mpr hle]
    · simp only [Cursor.next, hbits, isSome_none]
      rw [if_neg (by decide), hrest]
      have hcount : (a.stop + 1 - pos).toNat = (a.stop + 1 - (pos + 1)).toNat + 1 := by omega
      simp only [rest, here, hbits, isSome_none, hcount, range_succ_eq_map]
      have hshift : ∀ i : ℕ, pos + ((i + 1 : ℕ) : ℤ) = pos + 1 + i := fun i => by
        push_cast
        ring
      simp only [Bool.false_eq_true, if_false, map_cons, List.map_map, Function.comp_def,
        hshift, Nat.cast_zero, add_zero, cons_append]
    · simp only [Cursor.next, hbits, isSome_none]
      rwa [if_neg (by decide)]

/-! ## The loops -/

variable {cur1 cur2 : Cursor} {fuel : ℕ}

theorem elementsFrom_eq (h : cur.Settled) (hfuel : cur.rest.length < fuel) :
    elementsFrom fuel cur = some cur.rest := by
  induction fuel generalizing cur with
  | zero => exact absurd hfuel (Nat.not_lt_zero _)
  | succ fuel ih =>
    rw [elementsFrom]
    split
    · rename_i hend
      rw [h.endOfIset_iff.mp hend]
    · rename_i hmore
      obtain ⟨i, href, hrest, hnext⟩ := h.next (Bool.eq_false_iff.mpr hmore)
      rw [hrest, length_cons] at hfuel
      rw [href, hrest, ih hnext (by omega)]
      rfl

theorem equalLoop_eq (h1 : cur1.Settled) (h2 : cur2.Settled)
    (hfuel : cur1.rest.length + cur2.rest.length < fuel) :
    equalLoop fuel cur1 cur2 = some (decide (cur1.rest = cur2.rest)) := by
  induction fuel generalizing cur1 cur2 with
  | zero => exact absurd hfuel (Nat.not_lt_zero _)
  | succ fuel ih =>
    rw [equalLoop]
    split
    · rename_i hend
      rw [h1.endOfIset_iff.mp hend, Option.some.injEq, Bool.eq_iff_iff, h2.endOfIset_iff,
        decide_eq_true_eq]
      exact eq_comm
    rename_i hmore1
    obtain ⟨i1, href1, hrest1, hnext1⟩ := h1.next (Bool.eq_false_iff.mpr hmore1)
    split
    · rename_i hend
      rw [h2.endOfIset_iff.mp hend, hrest1]
      simp
    rename_i hmore2
    obtain ⟨i2, href2, hrest2, hnext2⟩ := h2.next (Bool.eq_false_iff.mpr hmore2)
    rw [hrest1, hrest2, length_cons, length_cons] at hfuel
    rw [href1, href2, hrest1, hrest2]
    show (if i1 = i2 then equalLoop fuel cur1.next cur2.next else some false) = _
    split
    · rename_i heq
      rw [ih hnext1 hnext2 (by omega), heq]
      simp
    · rename_i hne
      simp [hne]

theorem subsetLoop_eq (h1 : cur1.Settled) (h2 : cur2.Settled)
    (horder1 : cur1.rest.Pairwise (· < ·)) (horder2 : cur2.rest.Pairwise (· < ·))
    (hfuel : cur1.rest.length + cur2.rest.length < fuel) :
    subsetLoop fuel cur1 cur2 = some (decide (cur1.rest ⊆ cur2.rest)) := by
  induction fuel generalizing cur1 cur2 with
  | zero => exact absurd hfuel (Nat.not_lt_zero _)
  | succ fuel ih =>
    rw [subsetLoop]
    split
    · rename_i hend
      rw [h1.endOfIset_iff.mp hend]
      simp
    rename_i hmore1
    obtain ⟨i1, href1, hrest1, hnext1⟩ := h1.next (Bool.eq_false_iff.mpr hmore1)
    split
    · rename_i hend
      rw [h2.endOfIset_iff.mp hend, hrest1]
      simp
    rename_i hmore2
    obtain ⟨i2, href2, hrest2, hnext2⟩ := h2.next (Bool.eq_false_iff.mpr hmore2)
    have hcons1 := horder1
    have hcons2 := horder2
    rw [hrest1, pairwise_cons] at hcons1
    rw [hrest2, pairwise_cons] at hcons2
    have hlength1 : cur1.rest.length = cur1.next.rest.length + 1 := by
      rw [hrest1, length_cons]
    have hlength2 : cur2.rest.length = cur2.next.rest.length + 1 := by
      rw [hrest2, length_cons]
    rw [href1, href2]
    show (if i1 > i2 then subsetLoop fuel cur1 cur2.next
      else if i1 = i2 then subsetLoop fuel cur1.next cur2.next else some false) = _
    split
    · -- `i2` is below all of the first set
      rename_i hgt
      rw [ih h1 hnext2 horder1 hcons2.2 (by omega), hrest2]
      congr 1
      refine decide_eq_decide.mpr ⟨fun h => subset_cons_of_subset _ h, fun h x hx => ?_⟩
      rcases mem_cons.mp (h hx) with rfl | hx'
      · rw [hrest1] at hx
        rcases mem_cons.mp hx with rfl | hx
        · exact absurd hgt (lt_irrefl _)
        · exact absurd (hcons1.1 x hx) (not_lt.mpr hgt.le)
      · exact hx'
    split
    · rename_i hle heq
      subst heq
      rw [ih hnext1 hnext2 hcons1.2 hcons2.2 (by omega), hrest1, hrest2]
      congr 1
      refine decide_eq_decide.mpr ⟨fun h => cons_subset_cons _ h, fun h x hx => ?_⟩
      rcases mem_cons.mp (h (mem_cons_of_mem _ hx)) with rfl | hx'
      · exact absurd (hcons1.1 x hx) (lt_irrefl x)
      · exact hx'
    · -- `i1` is below all of the second set
      rename_i hle hne
      have hnot : i1 ∉ cur2.rest := by
        rw [hrest2, mem_cons]
        rintro (heq | hmem)
        · exact hne heq
        · have hlt := hcons2.1 i1 hmem
          omega
      rw [decide_eq_false fun h => hnot (h (hrest1 ▸ mem_cons_self))]

end Cursor

/-! ## On finite sets -/

variable {is is1 is2 : Iset} {S S1 S2 : Finset ℤ}

theorem Represents.cursor (h : Represents is S) (hset : is ≠ absent) :
    ∃ cur, is.cursor = some cur ∧ cur.Settled ∧ cur.rest = S.sort := by
  cases is with
  | absent => exact absurd rfl hset
  | node a left right =>
    obtain ⟨hsettled, hrest⟩ := Cursor.isetCursor_spec a left right []
    refine ⟨_, rfl, hsettled, ?_⟩
    rw [hrest, ← h.inOrder_eq]
    simp [Cursor.stackList, inOrder]

theorem compareWith_eq {loop : ℕ → Cursor → Cursor → Option Bool} {b : Bool}
    (h1 : Represents is1 S1) (h2 : Represents is2 S2) (hset1 : is1 ≠ absent)
    (hset2 : is2 ≠ absent)
    (hloop : ∀ fuel cur1 cur2, cur1.Settled → cur2.Settled → cur1.rest = S1.sort →
      cur2.rest = S2.sort → cur1.rest.length + cur2.rest.length < fuel →
      loop fuel cur1 cur2 = some b) :
    compareWith loop is1 is2 = some b := by
  obtain ⟨cur1, hcursor1, hsettled1, hrest1⟩ := h1.cursor hset1
  obtain ⟨cur2, hcursor2, hsettled2, hrest2⟩ := h2.cursor hset2
  unfold compareWith
  rw [hcursor1, hcursor2]
  refine hloop _ cur1 cur2 hsettled1 hsettled2 hrest1 hrest2 ?_
  rw [hrest1, hrest2, Finset.length_sort, Finset.length_sort, h1.agrees.size, h2.agrees.size]
  omega

theorem iset2Equal_eq (h1 : Represents is1 S1) (h2 : Represents is2 S2) (hset1 : is1 ≠ absent)
    (hset2 : is2 ≠ absent) : iset2Equal is1 is2 = some (decide (S1 = S2)) := by
  refine compareWith_eq h1 h2 hset1 hset2 fun fuel cur1 cur2 hs1 hs2 hr1 hr2 hfuel => ?_
  rw [Cursor.equalLoop_eq hs1 hs2 hfuel, hr1, hr2]
  congr 1
  refine decide_eq_decide.mpr ⟨fun h => ?_, fun h => by rw [h]⟩
  rw [← S1.sort_toFinset (· ≤ ·), h, Finset.sort_toFinset]

theorem iset2Subset_eq (h1 : Represents is1 S1) (h2 : Represents is2 S2) (hset1 : is1 ≠ absent)
    (hset2 : is2 ≠ absent) : iset2Subset is1 is2 = some (decide (S1 ⊆ S2)) := by
  refine compareWith_eq h1 h2 hset1 hset2 fun fuel cur1 cur2 hs1 hs2 hr1 hr2 hfuel => ?_
  have horder1 : cur1.rest.Pairwise (· < ·) := hr1 ▸ S1.sortedLT_sort.pairwise
  have horder2 : cur2.rest.Pairwise (· < ·) := hr2 ▸ S2.sortedLT_sort.pairwise
  rw [Cursor.subsetLoop_eq hs1 hs2 horder1 horder2 hfuel, hr1, hr2]
  congr 1
  refine decide_eq_decide.mpr ?_
  simp only [subset_def, Finset.mem_sort]
  rfl

/-- The sets of a list, with the finite sets that they represent. -/
def RepresentAll (ls : List Iset) (Ss : List (Finset ℤ)) : Prop :=
  List.Forall₂ (fun is S => is ≠ absent ∧ Represents is S) ls Ss

variable {ls : List Iset} {Ss : List (Finset ℤ)}

theorem compareAll_eq {compare : Iset → Iset → Option Bool} {R : Finset ℤ → Finset ℤ → Prop}
    [DecidableRel R]
    (hcompare : ∀ is1 is2 S1 S2, Represents is1 S1 → Represents is2 S2 → is1 ≠ absent →
      is2 ≠ absent → compare is1 is2 = some (decide (R S1 S2)))
    {a : Iset} {S : Finset ℤ} (ha : Represents a S) (hset : a ≠ absent)
    (hall : RepresentAll ls Ss) :
    compareAll compare a ls = some (decide ((S :: Ss).IsChain R)) := by
  induction hall generalizing a S with
  | nil => simp [compareAll]
  | @cons b T ls Ss hb _ ih =>
    rw [compareAll, hcompare a b S T ha hb.2 hset hb.1]
    show (if decide (R S T) = true then compareAll compare b ls else some false) = _
    by_cases hR : R S T
    · rw [if_pos (decide_eq_true hR), ih hb.2 hb.1]
      simp [hR]
    · rw [if_neg (by simpa using hR)]
      simp [hR]

theorem isetEqual_eq (hall : RepresentAll ls Ss) :
    isetEqual ls = some (decide (Ss.IsChain (· = ·))) := by
  cases hall with
  | nil => simp [isetEqual]
  | cons ha hall =>
    exact compareAll_eq (fun _ _ _ _ => iset2Equal_eq) ha.2 ha.1 hall

theorem isetSubset_eq (hall : RepresentAll ls Ss) :
    isetSubset ls = some (decide (Ss.IsChain (· ⊆ ·))) := by
  cases hall with
  | nil => simp [isetSubset]
  | cons ha hall =>
    exact compareAll_eq (fun _ _ _ _ => iset2Subset_eq) ha.2 ha.1 hall

/-- Stepping a cursor through a set finds its integers, each once and in increasing order; `iset=`
decides whether the sets are the same, and `iset<=` whether each is contained in the next. -/
theorem cursor_enumerates_and_decides :
    (∀ (a : Node) (left right : Iset) (S : Finset ℤ), Represents (node a left right) S →
      ∀ fuel, S.card < fuel →
        Cursor.elementsFrom fuel (Cursor.isetCursor a left right []) = some S.sort) ∧
    ∀ (ls : List Iset) (Ss : List (Finset ℤ)), RepresentAll ls Ss →
      isetEqual ls = some (decide (Ss.IsChain (· = ·))) ∧
        isetSubset ls = some (decide (Ss.IsChain (· ⊆ ·))) := by
  refine ⟨fun a left right S h fuel hfuel => ?_, fun ls Ss hall => ?_⟩
  · obtain ⟨cur, hcursor, hsettled, hrest⟩ := h.cursor (by simp)
    cases hcursor
    rw [Cursor.elementsFrom_eq hsettled, hrest]
    rwa [hrest, Finset.length_sort]
  · exact ⟨isetEqual_eq hall, isetSubset_eq hall⟩

/-- A cursor through three bitmaps. -/
theorem cursor_enumerates_cutAtFour :
    Cursor.elementsFrom 5 (Cursor.isetCursor ⟨5, 6, some 1⟩ (node ⟨0, 4, some 17⟩ absent absent)
      (node ⟨9, 9, some 1⟩ absent absent) []) = some ({0, 4, 5, 9} : Finset ℤ).sort :=
  cursor_enumerates_and_decides.1 _ _ _ _ cutAtFour_represents 5 (by decide)

end ChibiScheme.IntegerSet
