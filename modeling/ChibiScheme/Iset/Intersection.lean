import ChibiScheme.Iset.Overlap

/-!
# Intersection

The nodes of two sets that meet are cut, and what they share is collected and added to an empty set.
The nodes come in descending order, so the additions never break the order of the result.  What the
result lacks are the integers of both sets that lie one behind an overlap that has gone too far.
-/

namespace ChibiScheme.IntegerSet

open Iset

/-- The loop of `iset-intersection2!` over the nodes of a tree: the nodes that stay, in order and each
with its subtrees, the tree, and what is left of the nodes of the second set. -/
def intersectTree : Iset → List Node → List Iset × Iset × List Node
  | absent, bs => ([], absent, bs)
  | node a left right, bs =>
    let (resLeft, left, bs) := intersectTree left bs
    let (rounds, _, bs) := splitRounds a bs
    let (resRight, right, bs) := intersectTree right bs
    match rounds.map Round.common with
    | [] => (resLeft ++ resRight, node a left right, bs)
    | c :: pieces =>
      (resLeft ++ node c left right :: (pieces.map fun p => node p absent absent) ++ resRight,
        node c left right, bs)

/-- `iset-intersection` of two sets, the first of which is copied. -/
def isetIntersection (a b : Iset) : Option Iset :=
  adjoinNodes (intersectTree a b.nodes).1.reverse makeEmpty

variable {a b c : Node} {t left right is : Iset} {bs : List Node} {x z : ℤ} {fuel : ℕ}

/-! ## What is left of the second set -/

/-- What is left of the nodes of the second set behind the nodes of a tree. -/
def nodesLeft : Iset → List Node → List Node
  | absent, bs => bs
  | node a left right, bs => nodesLeft right (splitRounds a (nodesLeft left bs)).2.2

/-- When the loop comes to a node of the tree, it goes beyond its last integer, to `x`; `behind` is the
right subtree of the node. -/
def OverrunAt : Iset → List Node → ℤ → Iset → Prop
  | absent, _, _, _ => False
  | node a left right, bs, x, behind =>
    OverrunAt left bs x behind ∨
      (Overruns a (nodesLeft left bs) ∧ x = a.stop + 1 ∧ behind = right) ∨
      OverrunAt right (splitRounds a (nodesLeft left bs)).2.2 x behind

/-- What the loop takes for an integer of the second set. -/
def Removes (t : Iset) (bs : List Node) (z : ℤ) : Prop :=
  MemAny bs z ∧ ¬ ∃ behind, OverrunAt t bs z behind

theorem OverrunAt.exists_node {behind : Iset} (h : OverrunAt t bs x behind) :
    ∃ a ∈ t.nodes, (a.bits ≠ none ∧ a.Mem a.stop) ∧ x = a.stop + 1 := by
  induction t generalizing bs with
  | absent => cases h
  | node a left right ihleft ihright =>
    simp only [nodes, List.mem_append, List.mem_cons]
    rcases h with h | ⟨hover, hx, -⟩ | h
    · obtain ⟨b, hb, hx⟩ := ihleft h
      exact ⟨b, .inl hb, hx⟩
    · exact ⟨a, .inr (.inl rfl), ⟨hover.1, hover.2.1⟩, hx⟩
    · obtain ⟨b, hb, hx⟩ := ihright h
      exact ⟨b, .inr (.inr hb), hx⟩

theorem OverrunAt.mem {behind : Iset} (h : OverrunAt t bs x behind) (hz : behind.Mem z) :
    t.Mem z := by
  induction t generalizing bs with
  | absent => cases h
  | node a left right ihleft ihright =>
    rcases h with h | ⟨-, -, rfl⟩ | h
    · exact .inr (.inl (ihleft h))
    · exact .inr (.inr hz)
    · exact .inr (.inr (ihright h))

/-- What is left of the nodes after a tree. -/
structure LeftSpec (t : Iset) (bs : List Node) : Prop where
  order : InOrder (nodesLeft t bs)
  low : ∀ c, (∀ b ∈ bs, c < b.start) → ∀ b ∈ nodesLeft t bs, c < b.start
  passed : ∀ z, t.Mem z → ∀ b ∈ nodesLeft t bs, z < b.start
  mem : ∀ z, (∀ a ∈ t.nodes, a.stop < z) → (MemAny (nodesLeft t bs) z ↔ Removes t bs z)

theorem nodesLeft_spec (ht : t.Ordered) (hbs : InOrder bs) : LeftSpec t bs := by
  induction t generalizing bs with
  | absent =>
    refine ⟨hbs, fun c h => h, fun z hz => (by cases hz), fun z _ => ?_⟩
    simp [nodesLeft, Removes, OverrunAt]
  | node a left right ihleft ihright =>
    obtain ⟨ha, -, -, hleft, hright⟩ := ht
    have hfirst := ihleft hleft hbs
    have hrounds := splitRounds_spec ha hfirst.order
    have hlast := ihright hright hrounds.rest_order
    refine ⟨hlast.order, fun c h => hlast.low c (hrounds.rest_low c (hfirst.low c h)),
      fun z hz => ?_, fun z hz => ?_⟩
    · rcases hz with hz | hz | hz
      · exact hlast.low z (hrounds.passed z hz)
      · exact hlast.low z (hrounds.rest_low z (hfirst.passed z hz))
      · exact hlast.passed z hz
    · simp only [nodes, List.mem_append, List.mem_cons] at hz
      have hafterLeft := hfirst.mem z fun b hb => hz b (.inl hb)
      have hafterNode := hrounds.rest_mem z (hz a (.inr (.inl rfl)))
      have hafterRight := hlast.mem z fun b hb => hz b (.inr (.inr hb))
      show MemAny (nodesLeft right (splitRounds a (nodesLeft left bs)).2.2) z ↔ _
      rw [hafterRight, Removes, hafterNode, hafterLeft]
      unfold Removes
      simp only [OverrunAt, exists_or, not_or, and_assoc, exists_and_left, exists_eq, and_true]

/-! ## The integers of the parts of a tree -/

theorem overrunAt_node (ht : (node a left right).Ordered) (hz : z ≤ a.stop) (behind : Iset) :
    OverrunAt (node a left right) bs z behind ↔ OverrunAt left bs z behind := by
  have hle := ht.1.le
  simp only [OverrunAt]
  refine or_iff_left ?_
  rintro (⟨-, heq, -⟩ | hover)
  · omega
  · obtain ⟨b, hb, -, heq⟩ := hover.exists_node
    have hstart := startsBehind_iff_nodes.mp ht.2.2.1 b hb
    have hb := ((ordered_iff_inOrder.mp ht.2.2.2.2).ok b hb).le
    omega

theorem removes_left (ht : (node a left right).Ordered) (hz : left.Mem z) :
    Removes (node a left right) bs z ↔ Removes left bs z := by
  have hlt := lt_of_endsBefore ht.2.1 hz
  have hle := ht.1.le
  unfold Removes
  exact and_congr_right fun _ => not_congr (exists_congr (overrunAt_node ht (by omega)))

theorem removes_node (ht : (node a left right).Ordered) (hbs : InOrder bs) (hz : a.Mem z) :
    Removes (node a left right) bs z ↔ MemAny (nodesLeft left bs) z := by
  have hlow := hz.1
  have hbefore : ∀ b ∈ left.nodes, b.stop < z := fun b hb => by
    have hlt := endsBefore_iff_nodes.mp ht.2.1 b hb
    omega
  rw [(nodesLeft_spec ht.2.2.2.1 hbs).mem z hbefore]
  unfold Removes
  exact and_congr_right fun _ => not_congr (exists_congr (overrunAt_node ht hz.2.1))

theorem removes_right (ht : (node a left right).Ordered) (hbs : InOrder bs) (hz : right.Mem z) :
    Removes (node a left right) bs z ↔
      Removes right (splitRounds a (nodesLeft left bs)).2.2 z := by
  have hlt := lt_of_startsBehind ht.2.2.1 hz
  have hle := ht.1.le
  have hleft := nodesLeft_spec ht.2.2.2.1 hbs
  have hbefore : ∀ b ∈ left.nodes, b.stop < z := fun b hb => by
    have hlt := endsBefore_iff_nodes.mp ht.2.1 b hb
    omega
  rw [Removes, Removes, (splitRounds_spec ht.1 hleft.order).rest_mem z hlt, hleft.mem z hbefore]
  unfold Removes
  simp only [OverrunAt, exists_or, not_or, and_assoc, exists_and_left, exists_eq, and_true]

/-! ## The nodes that stay -/

/-- The set is the node, with some subtrees. -/
def IsRoot (is : Iset) (c : Node) : Prop := ∃ left right, is = node c left right

theorem isRoot_node (c : Node) (left right : Iset) : IsRoot (node c left right) c :=
  ⟨left, right, rfl⟩

theorem isNode_of_roots {bs : List Iset} {cs : List Node} (hroots : List.Forall₂ IsRoot bs cs)
    (hok : ∀ c ∈ cs, c.Ok) : ∀ b ∈ bs, IsNode b := by
  induction hroots with
  | nil => exact fun b hb => (List.not_mem_nil hb).elim
  | @cons b c bs cs hroot hroots ih =>
    intro d hd
    rcases List.mem_cons.mp hd with rfl | hd
    · obtain ⟨left, right, rfl⟩ := hroot
      exact ⟨c, left, right, rfl, hok c List.mem_cons_self⟩
    · exact ih (fun e he => hok e (List.mem_cons_of_mem _ he)) d hd

theorem nodeMem_iff_of_roots {bs : List Iset} {cs : List Node} (hroots : List.Forall₂ IsRoot bs cs) :
    (∃ b ∈ bs, NodeMem b z) ↔ MemAny cs z := by
  induction hroots with
  | nil => simp
  | @cons b c bs cs hroot hroots ih =>
    obtain ⟨left, right, rfl⟩ := hroot
    rw [List.exists_mem_cons_iff, nodeMem_node, ih, memAny_cons]

/-- What the nodes that stay hold. -/
structure Kept (t : Iset) (bs : List Node) (cs : List Node) : Prop where
  roots : List.Forall₂ IsRoot (intersectTree t bs).1 cs
  order : InOrder cs
  mem : ∀ z, MemAny cs z ↔ t.Mem z ∧ Removes t bs z
  low : ∀ c, (∀ b ∈ bs, c < b.start) → ∀ p ∈ cs, c < p.start
  apart : ∀ p ∈ cs, ∀ b ∈ nodesLeft t bs, p.stop < b.start

theorem intersectTree_left (t : Iset) (bs : List Node) :
    (intersectTree t bs).2.2 = nodesLeft t bs := by
  induction t generalizing bs with
  | absent => rfl
  | node a left right ihleft ihright =>
    rw [intersectTree, nodesLeft, ← ihright, ← ihleft]
    simp only
    split
    · rfl
    · rfl

theorem intersectTree_roots {csLeft csRight : List Node}
    (hleft : List.Forall₂ IsRoot (intersectTree left bs).1 csLeft)
    (hright : List.Forall₂ IsRoot
      (intersectTree right (splitRounds a (nodesLeft left bs)).2.2).1 csRight) :
    List.Forall₂ IsRoot (intersectTree (node a left right) bs).1
      (csLeft ++ (splitRounds a (nodesLeft left bs)).1.map Round.common ++ csRight) := by
  rw [intersectTree]
  simp only [intersectTree_left]
  cases (splitRounds a (nodesLeft left bs)).1.map Round.common with
  | nil =>
    rw [List.append_nil]
    exact List.rel_append hleft hright
  | cons c pieces =>
    have hpieces : List.Forall₂ IsRoot (pieces.map fun p => node p absent absent) pieces := by
      rw [List.forall₂_map_left_iff, List.forall₂_same]
      exact fun p _ => isRoot_node p absent absent
    exact List.rel_append (List.rel_append hleft (.cons (isRoot_node c _ _) hpieces)) hright

theorem intersectTree_spec (ht : t.Ordered) (hbs : InOrder bs) : ∃ cs, Kept t bs cs := by
  induction t generalizing bs with
  | absent =>
    refine ⟨[], .nil, .nil, fun z => ?_, fun _ _ _ h => (List.not_mem_nil h).elim,
      fun _ h => (List.not_mem_nil h).elim⟩
    simp [Iset.Mem]
  | node a left right ihleft ihright =>
    have ha := ht.1
    obtain ⟨csLeft, hleft⟩ := ihleft ht.2.2.2.1 hbs
    have hfirst := nodesLeft_spec ht.2.2.2.1 hbs
    have hrounds := splitRounds_spec ha hfirst.order
    obtain ⟨csRight, hright⟩ := ihright ht.2.2.2.2 hrounds.rest_order
    have hlast := nodesLeft_spec ht.2.2.2.2 hrounds.rest_order
    have hleftApart : ∀ p ∈ csLeft, ∀ q ∈ (splitRounds a (nodesLeft left bs)).1.map Round.common,
        p.stop < q.start := fun p hp => hrounds.common_low p.stop (hleft.apart p hp)
    have hleftRest : ∀ p ∈ csLeft, ∀ b ∈ (splitRounds a (nodesLeft left bs)).2.2,
        p.stop < b.start := fun p hp => hrounds.rest_low p.stop (hleft.apart p hp)
    refine ⟨csLeft ++ (splitRounds a (nodesLeft left bs)).1.map Round.common ++ csRight,
      intersectTree_roots hleft.roots hright.roots, ?_,
      fun z => ?_, fun c hc p hp => ?_, fun p hp b hb => ?_⟩
    · rw [InOrder.append_iff, InOrder.append_iff]
      refine ⟨⟨hleft.order, hrounds.common_order, hleftApart⟩, hright.order, fun p hp => ?_⟩
      rcases List.mem_append.mp hp with hp | hp
      · exact hright.low p.stop (hleftRest p hp)
      · exact hright.low p.stop (hrounds.common_apart p hp)
    · rw [memAny_append, memAny_append, hleft.mem, hrounds.common_mem, hright.mem]
      constructor
      · rintro ((⟨hz, hmem⟩ | ⟨hz, hmem⟩) | ⟨hz, hmem⟩)
        · exact ⟨.inr (.inl hz), (removes_left ht hz).mpr hmem⟩
        · exact ⟨.inl hz, (removes_node ht hbs hz).mpr hmem⟩
        · exact ⟨.inr (.inr hz), (removes_right ht hbs hz).mpr hmem⟩
      · rintro ⟨hz | hz | hz, hmem⟩
        · exact .inl (.inr ⟨hz, (removes_node ht hbs hz).mp hmem⟩)
        · exact .inl (.inl ⟨hz, (removes_left ht hz).mp hmem⟩)
        · exact .inr ⟨hz, (removes_right ht hbs hz).mp hmem⟩
    · rcases List.mem_append.mp hp with hp | hp
      · rcases List.mem_append.mp hp with hp | hp
        · exact hleft.low c hc p hp
        · exact hrounds.common_low c (hfirst.low c hc) p hp
      · exact hright.low c (hrounds.rest_low c (hfirst.low c hc)) p hp
    · rcases List.mem_append.mp hp with hp | hp
      · rcases List.mem_append.mp hp with hp | hp
        · exact hlast.low p.stop (hleftRest p hp) b hb
        · exact hlast.low p.stop (hrounds.common_apart p hp) b hb
      · exact hright.apart p hp b hb

/-! ## Adding the nodes -/

/-- All nodes lie on the left spine, and a node with something on its left is not empty. -/
def LeftSpine : Iset → Prop
  | absent => True
  | node a left right => right = absent ∧ (left = absent ∨ ∃ x, a.Mem x) ∧ LeftSpine left

theorem exists_mem_of_ne_zero (ha : a.Ok) (hbits : a.bits ≠ some 0) : ∃ x, a.Mem x := by
  have hle := ha.le
  cases h : a.bits with
  | none => exact ⟨a.start, le_refl _, hle, fun bits hbits => by rw [h] at hbits; cases hbits⟩
  | some bits =>
    rw [h, Ne, Option.some.injEq] at hbits
    have hbit := testBit_size_sub_one hbits
    refine ⟨a.start + ((bits.size - 1 : ℕ) : ℤ), ha.mem_iff.mpr ⟨by omega, ?_⟩⟩
    have hindex : (a.start + ((bits.size - 1 : ℕ) : ℤ) - a.start).toNat = bits.size - 1 := by omega
    rw [hindex, Node.toBits, h, Option.getD_some]
    exact hbit

theorem adjoin_front {bleft bright : Iset} (hfuel : is.height < fuel) (hordered : is.Ordered)
    (hspine : LeftSpine is) (hb : b.Ok) (hfront : is.startsBehind b.stop = true) :
    adjoinKeepsOrder fuel is (node b bleft bright) = true ∧
      ∀ is', adjoinNode fuel is (node b bleft bright) = some is' → LeftSpine is' := by
  induction fuel generalizing is with
  | zero => exact absurd hfuel (Nat.not_lt_zero _)
  | succ fuel ih =>
    cases is with
    | absent =>
      refine ⟨rfl, ?_⟩
      rintro _ ⟨⟩
      exact ⟨rfl, .inl rfl, trivial⟩
    | node a left right =>
      obtain ⟨rfl, hfull, hleft⟩ := hspine
      obtain ⟨hstart, hleftFront, -⟩ := startsBehind_node.mp hfront
      have ha := hordered.1
      rw [adjoinKeepsOrder, adjoinNode]
      split
      · rename_i hempty
        have habsent : left = absent := hfull.resolve_right fun h =>
          h.elim fun x hx => not_mem_of_isEmpty hempty (.inl hx)
        refine ⟨by rw [habsent]; rfl, ?_⟩
        rintro _ ⟨⟩
        exact ⟨rfl, .inl habsent, hleft⟩
      rename_i hempty
      split
      · refine ⟨rfl, ?_⟩
        rintro _ ⟨⟩
        exact ⟨rfl, hfull, hleft⟩
      rw [if_pos hstart.le, if_pos hstart.le]
      cases hmerge : shouldMergeLeft a left b with
      | true =>
        refine ⟨rfl, ?_⟩
        rw [if_pos rfl]
        rintro _ ⟨⟩
        obtain ⟨-, hmem⟩ := mergeLeft_spec ha hb hstart.le
        exact ⟨rfl, hfull.imp id (Exists.imp fun x hx => (hmem x).mpr (.inl hx)), hleft⟩
      | false =>
        have hdepth : left.height < fuel := by
          simp only [height] at hfuel
          omega
        obtain ⟨hkeeps, hspine⟩ := ih hdepth hordered.2.2.2.1 hleft hleftFront
        rw [Bool.false_or, decide_eq_true hstart, Bool.true_and, if_neg Bool.false_ne_true]
        refine ⟨hkeeps, fun is' his' => ?_⟩
        obtain ⟨left', hleft', rfl⟩ := Option.map_eq_some_iff.mp his'
        refine ⟨rfl, .inr ?_, hspine left' hleft'⟩
        -- the node is not empty, so that it holds an integer or has something on its left
        rcases hfull with rfl | hfull
        · refine exists_mem_of_ne_zero ha fun hbits => hempty ?_
          simp [isEmpty, hbits]
        · exact hfull

theorem adjoinsKeepOrder_front {bs : List Iset} {cs : List Node} (hroots : List.Forall₂ IsRoot bs cs)
    (hordered : is.Ordered) (hspine : LeftSpine is) (hok : ∀ c ∈ cs, c.Ok)
    (hdesc : cs.Pairwise fun c d => d.stop < c.start)
    (hfront : ∀ c ∈ cs, is.startsBehind c.stop = true) : adjoinsKeepOrder bs is = true := by
  induction hroots generalizing is with
  | nil => rfl
  | @cons b c bs cs hroot hroots ih =>
    obtain ⟨left, right, rfl⟩ := hroot
    obtain ⟨hnext, hdesc⟩ := List.pairwise_cons.mp hdesc
    have hc := hok c List.mem_cons_self
    obtain ⟨hkeeps, hspine'⟩ := @adjoin_front c is (is.height + 1) left right
      (Nat.lt_succ_self _) hordered hspine hc (hfront c List.mem_cons_self)
    obtain ⟨is', hrun, hadjoined⟩ :=
      adjoinNode_spec (Nat.lt_succ_self _) hordered c left right hc hkeeps
    have heq : isetAdjoinNode is (node c left right) = some is' := hrun
    rw [adjoinsKeepOrder, hkeeps, heq, Bool.true_and]
    refine ih hadjoined.ordered (hspine' is' hrun)
      (fun d hd => hok d (List.mem_cons_of_mem _ hd)) hdesc fun d hd => ?_
    exact hadjoined.behind d.stop (hfront d (List.mem_cons_of_mem _ hd)) (hnext d hd)

theorem adjoinsKeepOrder_makeEmpty {bs : List Iset} {cs : List Node}
    (hroots : List.Forall₂ IsRoot bs cs) (hok : ∀ c ∈ cs, c.Ok)
    (hdesc : cs.Pairwise fun c d => d.stop < c.start) : adjoinsKeepOrder bs makeEmpty = true := by
  cases hroots with
  | nil => rfl
  | @cons b c bs cs hroot hroots =>
    obtain ⟨left, right, rfl⟩ := hroot
    obtain ⟨hnext, hdesc⟩ := List.pairwise_cons.mp hdesc
    have hrun : isetAdjoinNode makeEmpty (node c left right) = some (node c absent absent) := rfl
    have hkeeps : adjoinKeepsOrder (makeEmpty.height + 1) makeEmpty (node c left right) = true := rfl
    rw [adjoinsKeepOrder, hkeeps, hrun, Bool.true_and]
    have hc := hok c List.mem_cons_self
    refine adjoinsKeepOrder_front hroots ⟨hc, rfl, rfl, trivial, trivial⟩ ⟨rfl, .inl rfl, trivial⟩
      (fun d hd => hok d (List.mem_cons_of_mem _ hd)) hdesc fun d hd => ?_
    exact startsBehind_node.mpr ⟨hnext d hd, rfl, rfl⟩

/-! ## The intersection -/

theorem isetIntersection_spec {b : Iset} (ht : t.Ordered) (hb : b.Ordered) :
    ∃ is, isetIntersection t b = some is ∧ is.Ordered ∧
      ∀ z, is.Mem z ↔ t.Mem z ∧ Removes t b.nodes z := by
  obtain ⟨cs, hkept⟩ := intersectTree_spec ht (ordered_iff_inOrder.mp hb)
  have hroots : List.Forall₂ IsRoot (intersectTree t b.nodes).1.reverse cs.reverse :=
    List.forall₂_reverse_iff.mpr hkept.roots
  have hok : ∀ c ∈ cs.reverse, c.Ok := fun c hc => hkept.order.ok c (List.mem_reverse.mp hc)
  have hdesc := List.pairwise_reverse.mpr hkept.order.pairwise
  obtain ⟨is, hrun, hordered, hmem⟩ := adjoinNodes_spec makeEmpty_represents.ordered
    (isNode_of_roots hroots hok) (adjoinsKeepOrder_makeEmpty hroots hok hdesc)
  refine ⟨is, hrun, hordered, fun z => ?_⟩
  have hnot : ¬ makeEmpty.Mem z := fun hz =>
    Finset.notMem_empty z ((makeEmpty_represents.mem z).mp hz)
  have hreverse : MemAny cs.reverse z ↔ MemAny cs z := by
    simp only [MemAny, List.mem_reverse]
  rw [hmem, or_iff_right hnot, nodeMem_iff_of_roots hroots, hreverse, hkept.mem]

end ChibiScheme.IntegerSet
