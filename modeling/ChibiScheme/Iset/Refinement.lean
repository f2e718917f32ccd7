import ChibiScheme.Iset.Contents

/-!
# Single integers

Adding a single integer to a set none of whose nodes is empty always keeps the order.  So `iset-map`,
which starts with an empty set of its own, never breaks it.
-/

namespace ChibiScheme.IntegerSet

open Iset

/-- No node is empty. -/
def Iset.Full : Iset → Prop
  | absent => True
  | node a left right => (∃ x, a.Mem x) ∧ left.Full ∧ right.Full

variable {a b : Node} {left right is : Iset} {n x : ℤ} {fuel : ℕ}

theorem single_ok (n : ℤ) : (⟨n, n, none⟩ : Node).Ok :=
  range_ok (le_refl n)

theorem mem_single : (⟨n, n, none⟩ : Node).Mem x ↔ x = n := by
  rw [Node.mem_of_range]
  omega

theorem single_mem_single (n : ℤ) : (⟨n, n, none⟩ : Node).Mem n :=
  mem_single.mpr rfl

theorem isEmpty_eq_false_of_mem (hmem : is.Mem x) : is.isEmpty = false :=
  Bool.eq_false_of_not_eq_true fun hempty => not_mem_of_isEmpty hempty hmem

theorem full_of_merged {a' : Node} (hfull : (node a left right).Full)
    (hmem : ∀ x, a'.Mem x ↔ a.Mem x ∨ b.Mem x) : (node a' left right).Full := by
  obtain ⟨⟨x, hx⟩, hfull⟩ := hfull
  exact ⟨⟨x, (hmem x).mpr (.inl hx)⟩, hfull⟩

theorem isetAdjoin1_full (hfuel : is.height < fuel) (hordered : is.Ordered) (hfull : is.Full) (n : ℤ) :
    adjoinKeepsOrder fuel is (makeRange n n) = true ∧
      ∀ is', adjoinNode fuel is (makeRange n n) = some is' → is'.Full := by
  have hnothing : (makeRange n n).isEmpty = false :=
    isEmpty_eq_false_of_mem (.inl (single_mem_single n))
  induction fuel generalizing is with
  | zero => exact absurd hfuel (Nat.not_lt_zero _)
  | succ fuel ih =>
    cases is with
    | absent =>
      refine ⟨rfl, ?_⟩
      rintro _ ⟨⟩
      exact ⟨⟨n, single_mem_single n⟩, trivial, trivial⟩
    | node a left right =>
      have hdepth : left.height < fuel ∧ right.height < fuel := by
        simp only [height] at hfuel
        omega
      obtain ⟨hkeepsLeft, hfullLeft⟩ := ih hdepth.1 hordered.2.2.2.1 hfull.2.1
      obtain ⟨hkeepsRight, hfullRight⟩ := ih hdepth.2 hordered.2.2.2.2 hfull.2.2
      obtain ⟨x, hx⟩ := hfull.1
      have hempty : (node a left right).isEmpty = false := isEmpty_eq_false_of_mem (.inl hx)
      unfold makeRange at *
      rw [adjoinKeepsOrder, adjoinNode, hempty, hnothing]
      simp only [Bool.false_eq_true, if_false]
      split
      · rename_i hbefore
        refine ⟨?_, ?_⟩
        · -- if the integer is the start of the node, it is merged with it
          rw [Bool.or_eq_true, Bool.and_eq_true, decide_eq_true_eq]
          rcases lt_or_eq_of_le hbefore with hlt | heq
          · exact .inr ⟨hlt, hkeepsLeft⟩
          · refine .inl ((shouldMergeLeft_iff_of_ordered hordered.2.2.2.1).mpr ⟨?_, ?_⟩)
            · show a.start - n < bitsThresh
              unfold bitsThresh
              omega
            · exact endsBefore_mono hordered.2.1 (le_of_eq heq.symm)
        · split
          · rintro _ ⟨⟩
            exact full_of_merged hfull (mergeLeft_spec hordered.1 (single_ok n) hbefore).2
          · intro is' hrun
            obtain ⟨left', hleft, rfl⟩ := Option.map_eq_some_iff.mp hrun
            exact ⟨hfull.1, hfullLeft left' hleft, hfull.2.2⟩
      split
      · rename_i hbehind
        refine ⟨?_, ?_⟩
        · rw [Bool.or_eq_true, Bool.and_eq_true, decide_eq_true_eq]
          rcases lt_or_eq_of_le hbehind with hlt | heq
          · exact .inr ⟨hlt, hkeepsRight⟩
          · refine .inl ((shouldMergeRight_iff_of_ordered hordered.2.2.2.2).mpr ⟨?_, ?_⟩)
            · show n - a.stop < bitsThresh
              unfold bitsThresh
              omega
            · exact startsBehind_mono hordered.2.2.1 (le_of_eq heq.symm)
        · split
          · rintro _ ⟨⟩
            exact full_of_merged hfull (mergeRight_spec hordered.1 (single_ok n) hbehind).2
          · intro is' hrun
            obtain ⟨right', hright, rfl⟩ := Option.map_eq_some_iff.mp hrun
            exact ⟨hfull.1, hfull.2.1, hfullRight right' hright⟩
      rename_i hbefore hbehind
      have hinside : n ≥ a.start ∧ n ≤ a.stop := by omega
      rw [if_pos hinside, if_pos hinside]
      refine ⟨rfl, ?_⟩
      rintro _ ⟨⟩
      exact full_of_merged hfull
        (addInside_spec hordered.1 (single_ok n) hinside.1 hinside.2).2.2.2

/-- The sets that `iset-map` goes through. -/
def Fresh (is : Iset) : Prop :=
  is = makeEmpty ∨ is.Ordered ∧ is.Full

theorem makeEmpty_ordered : makeEmpty.Ordered := by
  refine ⟨⟨le_refl _, ?_⟩, rfl, rfl, trivial, trivial⟩
  rintro _ ⟨⟩ i hi
  rw [Nat.zero_testBit] at hi
  cases hi

theorem Fresh.ordered (hfresh : Fresh is) : is.Ordered := by
  rcases hfresh with rfl | hfresh
  · exact makeEmpty_ordered
  · exact hfresh.1

theorem isetAdjoin1_spec (hordered : is.Ordered)
    (hkeeps : adjoinKeepsOrder (is.height + 1) is (makeRange n n) = true) :
    ∃ is', isetAdjoin1 is n = some is' ∧ is'.Ordered ∧ ∀ x, is'.Mem x ↔ is.Mem x ∨ x = n := by
  obtain ⟨is', hrun, hadjoined⟩ :=
    adjoinNode_spec (Nat.lt_succ_self _) hordered _ _ _ (single_ok n) hkeeps
  exact ⟨is', hrun, hadjoined.ordered, fun x => (hadjoined.mem x).trans (or_congr_right mem_single)⟩

theorem Fresh.isetAdjoin1 (hfresh : Fresh is) (n : ℤ) :
    ∃ is', isetAdjoin1 is n = some is' ∧ Fresh is' ∧ ∀ x, is'.Mem x ↔ is.Mem x ∨ x = n := by
  rcases hfresh with rfl | ⟨hordered, hfull⟩
  · obtain ⟨is', hrun, hordered, hmem⟩ := isetAdjoin1_spec (n := n) makeEmpty_ordered rfl
    refine ⟨is', hrun, .inr ⟨hordered, ?_⟩, hmem⟩
    cases hrun
    exact ⟨⟨n, single_mem_single n⟩, trivial, trivial⟩
  · obtain ⟨hkeeps, hfull⟩ := isetAdjoin1_full (Nat.lt_succ_self _) hordered hfull n
    obtain ⟨is', hrun, hordered, hmem⟩ := isetAdjoin1_spec hordered hkeeps
    exact ⟨is', hrun, .inr ⟨hordered, hfull is' hrun⟩, hmem⟩

theorem isetMap_spec (hordered : is.Ordered) (proc : ℤ → ℤ) :
    ∃ is', isetMap proc is = some is' ∧ is'.Ordered ∧
      ∀ x, is'.Mem x ↔ ∃ n, is.Mem n ∧ proc n = x := by
  have hfold : ∀ (l : List ℤ) (acc : Iset), Fresh acc →
      ∃ is', l.foldl (fun acc n => acc.bind fun is => isetAdjoin1 is (proc n)) (some acc) =
          some is' ∧ Fresh is' ∧ ∀ x, is'.Mem x ↔ acc.Mem x ∨ ∃ n ∈ l, proc n = x := by
    intro l
    induction l with
    | nil => exact fun acc hfresh => ⟨acc, rfl, hfresh, fun x => by simp⟩
    | cons n l ih =>
      intro acc hfresh
      obtain ⟨acc', hrun, hfresh', hmem⟩ := hfresh.isetAdjoin1 (proc n)
      obtain ⟨is', hrest, hfresh'', hmem'⟩ := ih acc' hfresh'
      refine ⟨is', ?_, hfresh'', fun x => ?_⟩
      · rw [List.foldl_cons, Option.bind_some, hrun, hrest]
      · rw [hmem', hmem, or_assoc, List.exists_mem_cons_iff, eq_comm (a := x)]
  obtain ⟨is', hrun, hfresh, hmem⟩ := hfold is.inOrder makeEmpty (.inl rfl)
  refine ⟨is', ?_, hfresh.ordered, fun x => (hmem x).trans ?_⟩
  · rw [isetMap, isetFold_eq_foldl, hrun]
  · have hnone : ¬ makeEmpty.Mem x := not_mem_of_isEmpty rfl
    rw [or_iff_right hnone]
    exact exists_congr fun n => and_congr_left fun _ => mem_inOrder hordered

/-! ## Integer sets as finite sets

A sequence of operations on integer sets is one on finite sets of integers, as long as no addition
breaks the order of the ranges. -/

open List Function

variable {a b : Iset} {S T : Finset ℤ}

/-- The set is in order and holds the integers of `S`. -/
structure Represents (is : Iset) (S : Finset ℤ) : Prop where
  ordered : is.Ordered
  mem : ∀ x, is.Mem x ↔ x ∈ S

theorem Represents.length_inOrder (h : Represents is S) : is.inOrder.length = S.card := by
  have hpairwise := inOrder_pairwise h.ordered
  have hnodup : is.inOrder.Nodup := hpairwise.imp fun hlt => ne_of_lt hlt
  have heq : is.inOrder.toFinset = S := by
    ext x
    rw [mem_toFinset, mem_inOrder h.ordered, h.mem]
  rw [← toFinset_card_of_nodup hnodup, heq]

/-! ## Several additions -/

/-- The nodes of a set, each with its subtrees, in order (`iset->node-list`). -/
def isetNodeList (is : Iset) : List Iset :=
  (isetFoldNode (fun is acc => is :: acc) [] is).reverse

/-- The nodes are added one after the other. -/
def adjoinNodes : List Iset → Iset → Option Iset
  | [], a => some a
  | b :: bs, a => (isetAdjoinNode a b).bind (adjoinNodes bs)

/-- None of the additions breaks the order. -/
def adjoinsKeepOrder : List Iset → Iset → Bool
  | [], _ => true
  | b :: bs, a =>
    adjoinKeepsOrder (a.height + 1) a b &&
      match isetAdjoinNode a b with
      | none => true
      | some a => adjoinsKeepOrder bs a

theorem isetNodeList_node (c : Node) (left right : Iset) :
    isetNodeList (node c left right) =
      isetNodeList left ++ node c left right :: isetNodeList right := by
  have hcons : ∀ (is : Iset) (acc : List Iset),
      (isetFoldNode (fun is acc => is :: acc) acc is).reverse = acc.reverse ++ isetNodeList is := by
    intro is
    induction is with
    | absent => exact fun acc => (append_nil _).symm
    | node c left right ihleft ihright =>
      intro acc
      unfold isetNodeList
      simp only [isetFoldNode, ihleft, ihright, reverse_cons, reverse_nil,
        nil_append, append_assoc]
  unfold isetNodeList
  rw [isetFoldNode, hcons, reverse_cons, append_assoc]
  rfl

theorem isetUnion2_eq (a b : Iset) : isetUnion2 a b = adjoinNodes (isetNodeList b) a := by
  have hfold : ∀ (bs cs : List Iset) (a : Iset),
      adjoinNodes (bs ++ cs) a = (adjoinNodes bs a).bind (adjoinNodes cs) := by
    intro bs cs
    induction bs with
    | nil => exact fun a => rfl
    | cons b bs ih =>
      intro a
      rw [cons_append, adjoinNodes, adjoinNodes, Option.bind_assoc]
      exact congrArg _ (funext ih)
  have hnode : ∀ (b : Iset) (acc : Option Iset),
      isetFoldNode (fun is acc => acc.bind fun a => isetAdjoinNode a is) acc b =
        acc.bind (adjoinNodes (isetNodeList b)) := by
    intro b
    induction b with
    | absent =>
      intro acc
      cases acc with
      | none => rfl
      | some a => rfl
    | node c left right ihleft ihright =>
      intro acc
      rw [isetFoldNode, ihleft, ihright, isetNodeList_node]
      cases acc with
      | none => rfl
      | some a =>
        rw [Option.bind_some, Option.bind_some, hfold, Option.bind_assoc]
        rfl
  exact hnode b (some a)

theorem listToIset_eq (ls : List ℤ) (is : Iset) :
    listToIset ls is = adjoinNodes (ls.map fun n => makeRange n n) is := by
  induction ls generalizing is with
  | nil => rfl
  | cons n ls ih =>
    rw [listToIset, map_cons, adjoinNodes]
    exact congrArg _ (funext ih)

/-- Every node of a set in order is one by itself. -/
def IsNode (b : Iset) : Prop := ∃ c left right, b = node c left right ∧ c.Ok

/-- The node at the root has the member. -/
def NodeMem (b : Iset) (x : ℤ) : Prop := ∃ c left right, b = node c left right ∧ c.Mem x

theorem nodeMem_node {c : Node} {left right : Iset} {x : ℤ} :
    NodeMem (node c left right) x ↔ c.Mem x := by
  constructor
  · rintro ⟨c, left, right, heq, hmem⟩
    cases heq
    exact hmem
  · exact fun hmem => ⟨c, left, right, rfl, hmem⟩

theorem adjoinNodes_spec {bs : List Iset} (hordered : a.Ordered) (hnodes : ∀ b ∈ bs, IsNode b)
    (hkeeps : adjoinsKeepOrder bs a = true) :
    ∃ a', adjoinNodes bs a = some a' ∧ a'.Ordered ∧
      ∀ x, a'.Mem x ↔ a.Mem x ∨ ∃ b ∈ bs, NodeMem b x := by
  induction bs generalizing a with
  | nil => exact ⟨a, rfl, hordered, fun x => by simp⟩
  | cons b bs ih =>
    obtain ⟨c, left, right, rfl, hok⟩ := hnodes b (mem_cons_self ..)
    rw [adjoinsKeepOrder, Bool.and_eq_true] at hkeeps
    obtain ⟨a', hrun, hadjoined⟩ :=
      adjoinNode_spec (Nat.lt_succ_self _) hordered _ _ _ hok hkeeps.1
    have hrun : isetAdjoinNode a (node c left right) = some a' := hrun
    have hrest := hkeeps.2
    rw [hrun] at hrest
    obtain ⟨a'', hrun', hordered', hmem⟩ :=
      ih hadjoined.ordered (fun b hb => hnodes b (mem_cons_of_mem _ hb)) hrest
    refine ⟨a'', ?_, hordered', fun x => ?_⟩
    · rw [adjoinNodes, hrun, Option.bind_some, hrun']
    · rw [hmem, hadjoined.mem, exists_mem_cons_iff, nodeMem_node, or_assoc]

theorem isNode_of_mem_isetNodeList (hordered : b.Ordered) : ∀ c ∈ isetNodeList b, IsNode c := by
  induction b with
  | absent => exact fun c hc => absurd hc not_mem_nil
  | node d left right ihleft ihright =>
    intro c hc
    rw [isetNodeList_node, mem_append, mem_cons] at hc
    rcases hc with hc | rfl | hc
    · exact ihleft hordered.2.2.2.1 c hc
    · exact ⟨d, left, right, rfl, hordered.1⟩
    · exact ihright hordered.2.2.2.2 c hc

theorem exists_nodeMem_iff (b : Iset) (x : ℤ) : (∃ c ∈ isetNodeList b, NodeMem c x) ↔ b.Mem x := by
  induction b with
  | absent => simp [isetNodeList, isetFoldNode, Iset.Mem]
  | node d left right ihleft ihright =>
    show _ ↔ d.Mem x ∨ left.Mem x ∨ right.Mem x
    rw [isetNodeList_node, ← ihleft, ← ihright]
    simp only [mem_append, mem_cons, or_and_right, exists_or, exists_eq_left, nodeMem_node]
    exact or_left_comm

/-! ## Runs -/

namespace Op

/-- The range is not empty, and no addition breaks the order. -/
def keepsOrder (s : Store) : Op → Bool
  | makeEmpty _ => true
  | makeRange _ n m => decide (n ≤ m)
  | adjoin dst ls => adjoinsKeepOrder (ls.map fun n => IntegerSet.makeRange n n) (s dst)
  | delete _ _ => true
  | union dst src => adjoinsKeepOrder (isetNodeList (s src)) (s dst)
  | map _ _ _ => true

/-- The operation on finite sets. -/
def onFinsets (S : ℕ → Finset ℤ) : Op → ℕ → Finset ℤ
  | makeEmpty dst => Function.update S dst ∅
  | makeRange dst n m => Function.update S dst (Int.instLocallyFiniteOrder.finsetIcc n m)
  | adjoin dst ls => Function.update S dst (S dst ∪ ls.toFinset)
  | delete dst ls => Function.update S dst (S dst \ ls.toFinset)
  | union dst src => Function.update S dst (S dst ∪ S src)
  | map dst src proc => Function.update S dst ((S src).image proc)

end Op

/-- No operation of the sequence breaks the order. -/
def opsKeepOrder (s : Store) : List Op → Bool
  | [] => true
  | op :: ops =>
    op.keepsOrder s &&
      match op.perform s with
      | none => true
      | some s => opsKeepOrder s ops

/-- The sequence on finite sets. -/
def runOnFinsets (S : ℕ → Finset ℤ) : List Op → ℕ → Finset ℤ
  | [] => S
  | op :: ops => runOnFinsets (op.onFinsets S) ops

theorem represents_update {s : Store} {S : ℕ → Finset ℤ} (hall : ∀ i, Represents (s i) (S i))
    {dst : ℕ} (hdst : Represents is T) (i : ℕ) :
    Represents (Function.update s dst is i) (Function.update S dst T i) := by
  by_cases heq : i = dst
  · subst heq
    rwa [update_self, update_self]
  · rw [update_of_ne heq, update_of_ne heq]
    exact hall i

theorem makeEmpty_represents : Represents makeEmpty ∅ :=
  ⟨makeEmpty_ordered, fun x => by
    rw [iff_false_intro (Finset.notMem_empty x), iff_false]
    exact not_mem_of_isEmpty rfl⟩

theorem makeRange_represents {n m : ℤ} (hle : n ≤ m) :
    Represents (makeRange n m) (Finset.Icc n m) := by
  refine ⟨⟨range_ok hle, rfl, rfl, trivial, trivial⟩, fun x => ?_⟩
  show (⟨n, m, none⟩ : Node).Mem x ∨ False ∨ False ↔ _
  rw [Node.mem_of_range, Finset.mem_Icc, or_false, or_false]

/-- Every operation that keeps the order is the one on sets. -/
theorem perform_represents {s : Store} {S : ℕ → Finset ℤ} {op : Op}
    (hall : ∀ i, Represents (s i) (S i)) (hkeeps : op.keepsOrder s = true) :
    ∃ s', op.perform s = some s' ∧ ∀ i, Represents (s' i) (op.onFinsets S i) := by
  cases op with
  | makeEmpty dst => exact ⟨_, rfl, represents_update hall makeEmpty_represents⟩
  | makeRange dst n m =>
    exact ⟨_, rfl, represents_update hall (makeRange_represents (of_decide_eq_true hkeeps))⟩
  | adjoin dst ls =>
    obtain ⟨is, hrun, hordered, hmem⟩ := adjoinNodes_spec (hall dst).ordered (fun b hb => by
      obtain ⟨n, -, rfl⟩ := mem_map.mp hb
      exact ⟨_, _, _, rfl, single_ok n⟩) hkeeps
    refine ⟨Function.update s dst is, ?_, represents_update hall ⟨hordered, fun x => ?_⟩⟩
    · rw [Op.perform, listToIset_eq, hrun]
      rfl
    · rw [hmem, (hall dst).mem, Finset.mem_union, mem_toFinset]
      simp only [mem_map, exists_exists_and_eq_and]
      refine or_congr_right ?_
      constructor
      · rintro ⟨n, hn, hx⟩
        rwa [mem_single.mp (nodeMem_node.mp hx)]
      · exact fun hx => ⟨x, hx, nodeMem_node.mpr (single_mem_single x)⟩
  | delete dst ls =>
    obtain ⟨hordered, hmem⟩ := isetDelete_spec (hall dst).ordered ls
    refine ⟨_, rfl, represents_update hall ⟨hordered, fun x => ?_⟩⟩
    rw [hmem, (hall dst).mem, Finset.mem_sdiff, mem_toFinset]
  | union dst src =>
    obtain ⟨is, hrun, hordered, hmem⟩ := adjoinNodes_spec (hall dst).ordered
      (isNode_of_mem_isetNodeList (hall src).ordered) hkeeps
    refine ⟨Function.update s dst is, ?_, represents_update hall ⟨hordered, fun x => ?_⟩⟩
    · rw [Op.perform, isetUnion2_eq, hrun]
      rfl
    · rw [hmem, exists_nodeMem_iff, (hall dst).mem, (hall src).mem, Finset.mem_union]
  | map dst src proc =>
    obtain ⟨is, hrun, hordered, hmem⟩ := isetMap_spec (hall src).ordered proc
    refine ⟨Function.update s dst is, ?_, represents_update hall ⟨hordered, fun x => ?_⟩⟩
    · rw [Op.perform, hrun]
      rfl
    · rw [hmem, Finset.mem_image]
      exact exists_congr fun n => and_congr_left fun _ => (hall src).mem n

/-- So is every run. -/
theorem runOps_represents {s : Store} {S : ℕ → Finset ℤ} {ops : List Op}
    (hall : ∀ i, Represents (s i) (S i)) (hkeeps : opsKeepOrder s ops = true) :
    ∃ s', runOps s ops = some s' ∧ ∀ i, Represents (s' i) (runOnFinsets S ops i) := by
  induction ops generalizing s S with
  | nil => exact ⟨s, rfl, hall⟩
  | cons op ops ih =>
    rw [opsKeepOrder, Bool.and_eq_true] at hkeeps
    obtain ⟨s', hrun, hall'⟩ := perform_represents hall hkeeps.1
    have hrest := hkeeps.2
    rw [hrun] at hrest
    obtain ⟨s'', hrun', hall''⟩ := ih hall' hrest
    exact ⟨s'', by rw [runOps, hrun, Option.bind_some, hrun'], hall''⟩

/-- What the operations tell of a set is what holds of the finite set. -/
structure Agrees (is : Iset) (S : Finset ℤ) : Prop where
  contains : ∀ n, is.contains n = true ↔ n ∈ S
  increasing : (isetToList is).Pairwise (· < ·)
  members : ∀ n, n ∈ isetToList is ↔ n ∈ S
  size : isetSize is = S.card
  ordered : is.Ordered

theorem Represents.agrees (h : Represents is S) : Agrees is S where
  contains n := (contains_iff h.ordered).trans (h.mem n)
  increasing := by
    rw [isetToList_eq]
    exact inOrder_pairwise h.ordered
  members n := by rw [isetToList_eq, mem_inOrder h.ordered, h.mem]
  size := by rw [isetSize_eq h.ordered, h.length_inOrder]
  ordered := h.ordered

/-- A sequence of operations that breaks no order is the one on finite sets. -/
theorem iset_refines {ops : List Op} (hkeeps : opsKeepOrder (fun _ => makeEmpty) ops = true) :
    ∃ s, runOps (fun _ => makeEmpty) ops = some s ∧
      ∀ i, Agrees (s i) (runOnFinsets (fun _ => ∅) ops i) := by
  obtain ⟨s, hrun, hall⟩ := runOps_represents (fun _ => makeEmpty_represents) hkeeps
  exact ⟨s, hrun, fun i => (hall i).agrees⟩

/-- A union of two sets, with a deletion behind it. -/
theorem iset_refines_union :
    ∃ s, runOps (fun _ => makeEmpty)
        [.adjoin 0 [5, 7], .makeRange 1 6 9, .union 0 1, .delete 0 [7]] = some s ∧
      ∀ i, Agrees (s i) (runOnFinsets (fun _ => ∅)
        [.adjoin 0 [5, 7], .makeRange 1 6 9, .union 0 1, .delete 0 [7]] i) :=
  iset_refines (by decide)

/-- The emptied node of 100 keeps the emptied one of 500 on its right and is used again for 700.  The
end of 500 is then taken for the last one before 1000, so 690 is merged with 1000, and 700 is looked
for in the range from 690. -/
theorem emptyNode_loses_member :
    (runOps (fun _ => makeEmpty) [.adjoin 0 [1000, 100, 500], .delete 0 [100, 500],
        .adjoin 0 [700, 900, 800, 690]]).map (fun s => (s 0).contains 700) = some false ∧
      700 ∈ runOnFinsets (fun _ => ∅) [.adjoin 0 [1000, 100, 500], .delete 0 [100, 500],
        .adjoin 0 [700, 900, 800, 690]] 0 := by
  decide

/-- A range that is not merged with a node shares its last integer with it. -/
example : (runOps (fun _ => makeEmpty) [.adjoin 0 [1000, 500], .makeRange 1 400 1000, .union 0 1]).map
    (fun s => isetSize (s 0)) = some 602 := by
  decide

/-- The set of 0, 4, 5 and 9, as a difference leaves it: the node of 0 and 4 ends with 4, and the next
one starts with 5. -/
def cutAtFour : Iset :=
  node ⟨5, 6, some 1⟩ (node ⟨0, 4, some 17⟩ absent absent) (node ⟨9, 9, some 1⟩ absent absent)

theorem bitmap_ok {start stop : ℤ} {bits : ℕ} (hle : start ≤ stop)
    (hbits : bits < 2 ^ (stop + 1 - start).toNat) : (⟨start, stop, some bits⟩ : Node).Ok := by
  refine ⟨hle, ?_⟩
  rintro _ ⟨⟩ i hi
  have hlt : i < (stop + 1 - start).toNat :=
    (Nat.pow_lt_pow_iff_right one_lt_two).mp (lt_of_le_of_lt (Nat.ge_two_pow_of_testBit hi) hbits)
  show start + (i : ℤ) ≤ stop
  omega

theorem cutAtFour_represents : Represents cutAtFour {0, 4, 5, 9} where
  ordered := ⟨bitmap_ok (by decide) (by decide), rfl, rfl,
    ⟨bitmap_ok (by decide) (by decide), rfl, rfl, trivial, trivial⟩,
    ⟨bitmap_ok (by decide) (by decide), rfl, rfl, trivial, trivial⟩⟩
  mem x := by
    simp only [cutAtFour, Iset.Mem, Node.mem_of_bits, or_false, Finset.mem_insert,
      Finset.mem_singleton]
    constructor
    · rintro (⟨hlow, hhigh, hbit⟩ | ⟨hlow, hhigh, hbit⟩ | ⟨hlow, hhigh, -⟩)
      · obtain rfl | rfl : x = 5 ∨ x = 6 := by omega
        · simp
        · exact absurd hbit (by decide)
      · obtain rfl | rfl | rfl | rfl | rfl : x = 0 ∨ x = 1 ∨ x = 2 ∨ x = 3 ∨ x = 4 := by omega
        · simp
        · exact absurd hbit (by decide)
        · exact absurd hbit (by decide)
        · exact absurd hbit (by decide)
        · simp
      · omega
    · rintro (rfl | rfl | rfl | rfl)
      · exact .inr (.inl (by decide))
      · exact .inr (.inl (by decide))
      · exact .inl (by decide)
      · exact .inr (.inr (by decide))

end ChibiScheme.IntegerSet
