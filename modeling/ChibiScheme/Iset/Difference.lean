import ChibiScheme.Iset.Intersection

/-!
# Difference

The nodes of a set are replaced by what is left of them beside the nodes of another one.  Where an
overlap goes beyond the last integer of a node, the tree is searched for this integer in the node, and
not in the right subtree, where it may be.
-/

namespace ChibiScheme.IntegerSet

open Iset

/-- `iset-insert-left!`, if there is a node to insert. -/
def insertLeft (left : Iset) : Option Node → Iset
  | none => left
  | some new => node new (subtreesOfNew left new).1 (subtreesOfNew left new).2

/-- Whether `iset-insert-right!` puts the right subtree on the right of the new node. -/
def keepsRight (right : Iset) (new : Node) : Bool :=
  match right with
  | absent => true
  | node r _ _ => decide (new.stop < r.start)

/-- The pieces of a node in its place: each round inserts what lies before the overlap on the left, and
the node of the next round on the right.  `right` is the right subtree, `right'` what the loop makes of
it afterwards. -/
def placeRounds (right right' : Iset) : List Round → Option Node → Iset → Iset
  | [], none, left => left
  | [], some rest, left => node rest left right'
  | round :: rounds, rest, left =>
    let next := (rounds.head?.map Round.piece).or rest
    node round.without (insertLeft left round.before)
      (match next with
      | none => right'
      | some new =>
        if keepsRight right new then placeRounds right right' rounds rest absent
        else placeRounds absent absent rounds rest right')

/-- The loop of `iset-difference2!` over the nodes of a tree, with the nodes of the second set. -/
def differenceTree : Iset → List Node → Iset × List Node
  | absent, bs => (absent, bs)
  | node a left right, bs =>
    let (left, bs) := differenceTree left bs
    let (rounds, rest, bs) := splitRounds a bs
    let (right', bs) := differenceTree right bs
    (placeRounds right right' rounds rest left, bs)

/-- `iset-difference` of two sets, the first of which is copied. -/
def isetDifference (a b : Iset) : Iset :=
  (differenceTree a b.nodes).1

variable {a b c : Node} {t left right right' is : Iset} {bs : List Node} {rounds : List Round}
  {rest : Option Node} {x z : ℤ}

theorem differenceTree_left (t : Iset) (bs : List Node) :
    (differenceTree t bs).2 = nodesLeft t bs := by
  induction t generalizing bs with
  | absent => rfl
  | node a left right ihleft ihright => rw [differenceTree, nodesLeft, ← ihright, ← ihleft]

theorem differenceTree_node (a : Node) (left right : Iset) (bs : List Node) :
    (differenceTree (node a left right) bs).1 =
      placeRounds right (differenceTree right (splitRounds a (nodesLeft left bs)).2.2).1
        (splitRounds a (nodesLeft left bs)).1 (splitRounds a (nodesLeft left bs)).2.1
        (differenceTree left bs).1 := by
  rw [differenceTree, ← differenceTree_left]

/-! ## The pieces in their place -/

theorem contains_node (ha : a.Ok) : (node a left right).contains z = true ↔
    a.Mem z ∨ z < a.start ∧ left.contains z = true ∨ a.stop < z ∧ right.contains z = true := by
  have hle := ha.le
  rw [contains]
  split
  · rename_i hlt
    have hnot : ¬ a.Mem z := fun hz => absurd hz.1 (not_le.mpr hlt)
    have hnot' : ¬ a.stop < z := by omega
    simp [hnot, hnot', hlt]
  rename_i hge
  split
  · rename_i hlt
    have hnot : ¬ a.Mem z := fun hz => absurd hz.2.1 (not_le.mpr hlt)
    simp [hnot, hge, hlt]
  rename_i hge'
  have hrange : a.start ≤ z ∧ z ≤ a.stop := ⟨not_lt.mp hge, not_lt.mp hge'⟩
  have hhere : a.Mem z ∨ z < a.start ∧ left.contains z = true ∨ a.stop < z ∧ right.contains z = true ↔
      a.Mem z := by
    simp only [hge, false_and, false_or]
    exact ⟨fun h => h.resolve_right fun hright => hge' hright.1, .inl⟩
  rw [hhere]
  obtain ⟨start, stop, bits⟩ := a
  cases bits with
  | none => exact iff_of_true rfl (Node.mem_of_range.mpr hrange)
  | some bits =>
    rw [Node.mem_of_bits]
    exact ⟨fun h => ⟨hrange.1, hrange.2, h⟩, fun h => h.2.2⟩

/-- What lies before the overlap has the subtree on its left. -/
def StaysLeft (left : Iset) (rounds : List Round) : Prop :=
  ∀ round ∈ rounds, ∀ p ∈ round.before, subtreesOfNew left p = (left, absent)

theorem insertLeft_nodes {before : Option Node}
    (h : ∀ p ∈ before, subtreesOfNew left p = (left, absent)) :
    (insertLeft left before).nodes = left.nodes ++ before.toList := by
  cases before with
  | none => simp [insertLeft]
  | some p => simp [insertLeft, h p rfl, nodes]

theorem contains_insertLeft {before : Option Node}
    (h : ∀ p ∈ before, subtreesOfNew left p = (left, absent)) (hok : ∀ p ∈ before, p.Ok) :
    (insertLeft left before).contains z = true ↔
      (∃ p ∈ before, p.Mem z) ∨ (∀ p ∈ before, z < p.start) ∧ left.contains z = true := by
  cases before with
  | none => simp [insertLeft]
  | some p =>
    rw [insertLeft, h p rfl, contains_node (hok p rfl)]
    simp [contains]

theorem placeRounds_cons {round : Round} (left : Iset)
    (hright : ∀ p ∈ rounds.map Round.piece ++ rest.toList, keepsRight right p = true) :
    placeRounds right right' (round :: rounds) rest left =
      node round.without (insertLeft left round.before)
        (if rounds = [] ∧ rest = none then right' else placeRounds right right' rounds rest absent) := by
  rw [placeRounds]
  congr 1
  cases rounds with
  | nil =>
    cases rest with
    | none => rfl
    | some p =>
      have hp := hright p (by simp)
      simp [hp]
  | cons r rounds =>
    have hp := hright r.piece (by simp)
    simp [hp]

theorem placeRounds_nodes (hsome : rounds ≠ [] ∨ rest ≠ none) (hleft : StaysLeft left rounds)
    (hright : ∀ p ∈ rounds.map Round.piece ++ rest.toList, keepsRight right p = true) :
    (placeRounds right right' rounds rest left).nodes =
      left.nodes ++ piecesOf rounds rest ++ right'.nodes := by
  induction rounds generalizing left with
  | nil =>
    obtain ⟨p, rfl⟩ := Option.ne_none_iff_exists'.mp (hsome.resolve_left (not_not.mpr rfl))
    simp [placeRounds, nodes, piecesOf]
  | cons round rounds ih =>
    have hrest : ∀ p ∈ rounds.map Round.piece ++ rest.toList, keepsRight right p = true :=
      fun p hp => hright p (List.mem_cons_of_mem _ hp)
    rw [placeRounds_cons left hrest, piecesOf_cons, nodes,
      insertLeft_nodes (hleft round List.mem_cons_self)]
    split
    · rename_i hlast
      obtain ⟨rfl, rfl⟩ := hlast
      simp [piecesOf]
    · rename_i hmore
      rw [ih (by tauto) (fun _ _ _ _ => rfl) hrest]
      simp [nodes]

theorem contains_placeRounds (hsome : rounds ≠ [] ∨ rest ≠ none) (hleft : StaysLeft left rounds)
    (hright : ∀ p ∈ rounds.map Round.piece ++ rest.toList, keepsRight right p = true)
    (horder : InOrder (piecesOf rounds rest)) :
    (placeRounds right right' rounds rest left).contains z = true ↔
      MemAny (piecesOf rounds rest) z ∨
        (∀ p ∈ piecesOf rounds rest, z < p.start) ∧ left.contains z = true ∨
        (∀ p ∈ piecesOf rounds rest, p.stop < z) ∧ right'.contains z = true := by
  induction rounds generalizing left with
  | nil =>
    obtain ⟨p, rfl⟩ := Option.ne_none_iff_exists'.mp (hsome.resolve_left (not_not.mpr rfl))
    have hpieces : piecesOf [] (some p) = [p] := rfl
    rw [hpieces] at horder ⊢
    rw [placeRounds, contains_node (horder.ok p List.mem_cons_self)]
    simp
  | cons round rounds ih =>
    have hrest : ∀ p ∈ rounds.map Round.piece ++ rest.toList, keepsRight right p = true :=
      fun p hp => hright p (List.mem_cons_of_mem _ hp)
    rw [piecesOf_cons] at horder
    obtain ⟨hbefore, hpieces, hapart⟩ := InOrder.append_iff.mp horder
    obtain ⟨hok, hnext, hpieces⟩ := InOrder.cons_iff.mp hpieces
    have hle := hok.le
    rw [placeRounds_cons left hrest, piecesOf_cons, contains_node hok,
      contains_insertLeft (hleft round List.mem_cons_self)
        fun p hp => hbefore.ok p (Option.mem_toList.mpr hp)]
    have hbeforeLt : ∀ p ∈ round.before, p.stop < round.without.start := fun p hp =>
      hapart p (Option.mem_toList.mpr hp) _ List.mem_cons_self
    have htail : (if rounds = [] ∧ rest = none then right'
          else placeRounds right right' rounds rest absent).contains z = true ↔
        MemAny (piecesOf rounds rest) z ∨
          (∀ p ∈ piecesOf rounds rest, p.stop < z) ∧ right'.contains z = true := by
      split
      · rename_i hlast
        obtain ⟨rfl, rfl⟩ := hlast
        simp [piecesOf]
      · rename_i hmore
        rw [ih (by tauto) (fun _ _ _ _ => rfl) hrest hpieces]
        simp [contains]
    rw [htail]
    simp only [memAny_append, memAny_toList, memAny_cons, List.mem_append, Option.mem_toList,
      List.mem_cons]
    constructor
    · rintro (hz | ⟨hlt, hz | ⟨hfirst, hz⟩⟩ | ⟨hlt, hz | ⟨hlast, hz⟩⟩)
      · exact .inl (.inr (.inl hz))
      · exact .inl (.inl hz)
      · refine .inr (.inl ⟨fun p hp => ?_, hz⟩)
        rcases hp with hp | rfl | hp
        · exact hfirst p hp
        · exact hlt
        · have hstart := hnext p hp
          omega
      · exact .inl (.inr (.inr hz))
      · refine .inr (.inr ⟨fun p hp => ?_, hz⟩)
        rcases hp with hp | rfl | hp
        · have hstop := hbeforeLt p hp
          omega
        · exact hlt
        · exact hlast p hp
    · rintro ((⟨p, hp, hz⟩ | hz | ⟨p, hp, hz⟩) | ⟨hfirst, hz⟩ | ⟨hlast, hz⟩)
      · have hstop := hbeforeLt p hp
        exact .inr (.inl ⟨lt_of_le_of_lt hz.2.1 hstop, .inl ⟨p, hp, hz⟩⟩)
      · exact .inl hz
      · exact .inr (.inr ⟨lt_of_lt_of_le (hnext p hp) hz.1, .inl ⟨p, hp, hz⟩⟩)
      · exact .inr (.inl ⟨hfirst _ (.inr (.inl rfl)), .inr ⟨fun p hp => hfirst p (.inl hp), hz⟩⟩)
      · exact .inr (.inr ⟨hlast _ (.inr (.inl rfl)), .inr ⟨fun p hp => hlast p (.inr (.inr hp)), hz⟩⟩)

/-! ## The difference -/

/-- What the loop hides: an integer behind a node whose overlap goes beyond it, in the right subtree. -/
def Hides (t : Iset) (bs : List Node) (z : ℤ) : Prop :=
  ∃ behind, OverrunAt t bs z behind ∧ behind.Mem z

/-- What the loop makes of a tree. -/
structure Differs (t : Iset) (bs : List Node) (is : Iset) : Prop where
  high : ∀ c, (∀ a ∈ t.nodes, a.stop < c) → ∀ p ∈ is.nodes, p.start ≤ c
  contains : ∀ z, is.contains z = true ↔ (t.Mem z ∧ ¬ Removes t bs z) ∧ ¬ Hides t bs z
  list : is.inOrder.Pairwise (· < ·)
  mem : ∀ z, z ∈ is.inOrder ↔ t.Mem z ∧ ¬ Removes t bs z

theorem hides_left (ht : (node a left right).Ordered) (hz : left.Mem z) :
    Hides (node a left right) bs z ↔ Hides left bs z := by
  have hlt := lt_of_endsBefore ht.2.1 hz
  have hnot : ¬ right.Mem z := fun hright => by
    have hbehind := lt_of_startsBehind ht.2.2.1 hright
    have hle := ht.1.le
    omega
  unfold Hides
  simp only [OverrunAt]
  refine exists_congr fun behind => and_congr_left fun hbehind => or_iff_left ?_
  rintro (⟨-, -, rfl⟩ | hover)
  · exact hnot hbehind
  · exact hnot (hover.mem hbehind)

theorem not_hides_node (ht : (node a left right).Ordered) (hz : a.Mem z) :
    ¬ Hides (node a left right) bs z := by
  have hlow := hz.1
  have hhigh := hz.2.1
  have hnotRight : ¬ right.Mem z := fun hright =>
    absurd (lt_of_startsBehind ht.2.2.1 hright) (not_lt.mpr hhigh)
  rintro ⟨behind, hover | ⟨-, -, rfl⟩ | hover, hbehind⟩
  · exact absurd (lt_of_endsBefore ht.2.1 (hover.mem hbehind)) (not_lt.mpr hlow)
  · exact hnotRight hbehind
  · exact hnotRight (hover.mem hbehind)

theorem hides_right (ht : (node a left right).Ordered) (hz : right.Mem z) :
    Hides (node a left right) bs z ↔
      (Overruns a (nodesLeft left bs) ∧ z = a.stop + 1) ∨
        Hides right (splitRounds a (nodesLeft left bs)).2.2 z := by
  have hlt := lt_of_startsBehind ht.2.2.1 hz
  have hle := ht.1.le
  have hnot : ¬ left.Mem z := fun hleft => by
    have hbefore := lt_of_endsBefore ht.2.1 hleft
    omega
  constructor
  · rintro ⟨behind, hover | ⟨hover, heq, -⟩ | hover, hbehind⟩
    · exact absurd (hover.mem hbehind) hnot
    · exact .inl ⟨hover, heq⟩
    · exact .inr ⟨behind, hover, hbehind⟩
  · rintro (⟨hover, heq⟩ | ⟨behind, hover, hbehind⟩)
    · exact ⟨right, .inr (.inl ⟨hover, heq, rfl⟩), hz⟩
    · exact ⟨behind, .inr (.inr hover), hbehind⟩

theorem differenceTree_spec (ht : t.Ordered) (hbs : InOrder bs) :
    Differs t bs (differenceTree t bs).1 := by
  induction t generalizing bs with
  | absent =>
    exact ⟨fun _ _ _ h => (List.not_mem_nil h).elim, fun z => by simp [differenceTree, contains, Iset.Mem],
      .nil, fun z => by simp [differenceTree, inOrder, Iset.Mem]⟩
  | node a left right ihleft ihright =>
    have ha := ht.1
    have hleft := ihleft ht.2.2.2.1 hbs
    have hfirst := nodesLeft_spec ht.2.2.2.1 hbs
    have hrounds := splitRounds_spec ha hfirst.order
    have hright := ihright ht.2.2.2.2 hrounds.rest_order
    rw [differenceTree_node]
    generalize (differenceTree left bs).1 = left' at *
    generalize (differenceTree right (splitRounds a (nodesLeft left bs)).2.2).1 = right' at *
    -- the left result ends in front of the pieces of this node, so none of it moves
    have hstaysLeft : StaysLeft left' (splitRounds a (nodesLeft left bs)).1 := by
      intro round hround p hp
      have hstart := hrounds.before_start round hround p hp
      have hpiece : p ∈ piecesOf (splitRounds a (nodesLeft left bs)).1
          (splitRounds a (nodesLeft left bs)).2.1 := by
        simp only [piecesOf, List.mem_append, List.mem_flatMap, Option.mem_toList]
        exact .inl ⟨round, hround, .inl hp⟩
      have hle := (hrounds.order.ok p hpiece).le
      cases left' with
      | absent => rfl
      | node l lleft lright =>
        have hl := hleft.high a.start (endsBefore_iff_nodes.mp ht.2.1) l (by simp [nodes])
        rw [subtreesOfNew, if_neg (by omega)]
    -- and the pieces end in front of the right subtree
    have hkeepsRight : ∀ p ∈ (splitRounds a (nodesLeft left bs)).1.map Round.piece ++
        (splitRounds a (nodesLeft left bs)).2.1.toList, keepsRight right p = true := by
      intro p hp
      have hstop := hrounds.next_stop p hp
      cases right with
      | absent => rfl
      | node r rleft rright =>
        have hr := startsBehind_iff_nodes.mp ht.2.2.1 r (by simp [nodes])
        rw [keepsRight, decide_eq_true_eq]
        omega
    have hnodes := @placeRounds_nodes left' right right' _ _ hrounds.nonempty hstaysLeft hkeepsRight
    have hcontains := fun z => @contains_placeRounds left' right right' _ _ z hrounds.nonempty hstaysLeft
      hkeepsRight hrounds.order
    have hlow : ∀ z, left.Mem z → z < a.start := fun z hz => lt_of_endsBefore ht.2.1 hz
    have hhigh : ∀ z, right.Mem z → a.stop < z := fun z hz => lt_of_startsBehind ht.2.2.1 hz
    have hle := ha.le
    have hlist : ∀ z, z ∈ (piecesOf (splitRounds a (nodesLeft left bs)).1
        (splitRounds a (nodesLeft left bs)).2.1).flatMap Node.toList ↔
          a.Mem z ∧ ¬ MemAny (nodesLeft left bs) z := fun z =>
      hrounds.order.mem_flatMap.trans (hrounds.mem z)
    refine ⟨fun c hc p hp => ?_, fun z => ?_, ?_, fun z => ?_⟩
    · simp only [nodes, List.mem_append, List.mem_cons] at hc
      rw [hnodes, List.mem_append, List.mem_append] at hp
      rcases hp with (hp | hp) | hp
      · exact hleft.high c (fun b hb => hc b (.inl hb)) p hp
      · have ha := hc a (.inr (.inl rfl))
        have hp_le := (hrounds.order.ok p hp).le
        rcases hrounds.high p hp with hstop | ⟨-, hstop⟩
        · omega
        · omega
      · exact hright.high c (fun b hb => hc b (.inr (.inr hb))) p hp
    · rw [hcontains, hrounds.mem, hleft.contains, hright.contains]
      constructor
      · rintro (⟨hz, hnot⟩ | ⟨-, ⟨hz, hnot⟩, hhides⟩ | ⟨hbehind, ⟨hz, hnot⟩, hhides⟩)
        · exact ⟨⟨.inl hz, fun h => hnot ((removes_node ht hbs hz).mp h)⟩, not_hides_node ht hz⟩
        · exact ⟨⟨.inr (.inl hz), fun h => hnot ((removes_left ht hz).mp h)⟩,
            fun h => hhides ((hides_left ht hz).mp h)⟩
        · refine ⟨⟨.inr (.inr hz), fun h => hnot ((removes_right ht hbs hz).mp h)⟩, fun h => ?_⟩
          rcases (hides_right ht hz).mp h with ⟨hover, rfl⟩ | h
          · obtain ⟨p, hp, hstop⟩ := hrounds.overrun hover
            exact absurd (hbehind p hp) (not_lt.mpr hstop.ge)
          · exact hhides h
      · rintro ⟨⟨hz | hz | hz, hnot⟩, hhides⟩
        · exact .inl ⟨hz, fun h => hnot ((removes_node ht hbs hz).mpr h)⟩
        · exact .inr (.inl ⟨hrounds.low z (hlow z hz) (hfirst.passed z hz),
            ⟨hz, fun h => hnot ((removes_left ht hz).mpr h)⟩,
            fun h => hhides ((hides_left ht hz).mpr h)⟩)
        · refine .inr (.inr ⟨fun p hp => ?_, ⟨hz, fun h => hnot ((removes_right ht hbs hz).mpr h)⟩,
            fun h => hhides ((hides_right ht hz).mpr (.inr h))⟩)
          have hlt := hhigh z hz
          rcases hrounds.high p hp with hstop | ⟨hover, hstop⟩
          · omega
          · -- an integer one behind the node would be hidden
            have hne : z ≠ a.stop + 1 := fun heq =>
              hhides ((hides_right ht hz).mpr (.inl ⟨hover, heq⟩))
            omega
    · rw [inOrder_eq_flatMap, hnodes, List.flatMap_append, List.flatMap_append,
        ← inOrder_eq_flatMap, ← inOrder_eq_flatMap, List.pairwise_append, List.pairwise_append]
      refine ⟨⟨hleft.list, hrounds.order.pairwise_flatMap, fun y hy z hz => ?_⟩, hright.list,
        fun y hy z hz => ?_⟩
      · have hy := hlow y ((hleft.mem y).mp hy).1
        have hz := ((hlist z).mp hz).1.1
        omega
      · have hz := hhigh z ((hright.mem z).mp hz).1
        rcases List.mem_append.mp hy with hy | hy
        · have hy := hlow y ((hleft.mem y).mp hy).1
          omega
        · have hy := ((hlist y).mp hy).1.2.1
          omega
    · rw [inOrder_eq_flatMap, hnodes, List.flatMap_append, List.flatMap_append,
        ← inOrder_eq_flatMap, ← inOrder_eq_flatMap, List.mem_append, List.mem_append, hleft.mem,
        hlist, hright.mem]
      constructor
      · rintro ((⟨hz, hnot⟩ | ⟨hz, hnot⟩) | ⟨hz, hnot⟩)
        · exact ⟨.inr (.inl hz), fun h => hnot ((removes_left ht hz).mp h)⟩
        · exact ⟨.inl hz, fun h => hnot ((removes_node ht hbs hz).mp h)⟩
        · exact ⟨.inr (.inr hz), fun h => hnot ((removes_right ht hbs hz).mp h)⟩
      · rintro ⟨hz | hz | hz, hnot⟩
        · exact .inl (.inr ⟨hz, fun h => hnot ((removes_node ht hbs hz).mpr h)⟩)
        · exact .inl (.inl ⟨hz, fun h => hnot ((removes_left ht hz).mpr h)⟩)
        · exact .inr ⟨hz, fun h => hnot ((removes_right ht hbs hz).mpr h)⟩

/-! ## Sets that have names -/

/-- A set tells of exactly the integers of `S`, and lists them in increasing order. -/
structure Tells (is : Iset) (S : Finset ℤ) : Prop where
  contains : ∀ z, is.contains z = true ↔ z ∈ S
  list : (isetToList is).Pairwise (· < ·)
  mem : ∀ z, z ∈ isetToList is ↔ z ∈ S

theorem Represents.tells {S : Finset ℤ} (h : Represents is S) : Tells is S where
  contains z := (contains_iff h.ordered).trans (h.mem z)
  list := by
    rw [isetToList_eq]
    exact inOrder_pairwise h.ordered
  mem z := by
    rw [isetToList_eq, mem_inOrder h.ordered]
    exact h.mem z

/-- `iset-intersection` and `iset-difference` of two sets. -/
inductive Combination where
  | intersection
  | difference

namespace Combination

/-- The result gets the name `dst`. -/
def perform (op : Combination) (s : Store) (dst src1 src2 : ℕ) : Option Store :=
  match op with
  | intersection => (isetIntersection (s src1) (s src2)).map (Function.update s dst)
  | difference => some (Function.update s dst (isetDifference (s src1) (s src2)))

/-- The operations on finite sets. -/
def onFinsets : Combination → Finset ℤ → Finset ℤ → Finset ℤ
  | intersection, S, T => S ∩ T
  | difference, S, T => S \ T

/-- Going beyond the last integer of a node does no harm when the integer is not in both sets, and, in
a difference, not behind the node in the tree. -/
def Harmless (op : Combination) (S T : Finset ℤ) (x : ℤ) (behind : Iset) : Prop :=
  ¬ (x ∈ S ∧ x ∈ T) ∧ (op = difference → ¬ behind.Mem x)

end Combination

open Combination

variable {S T : Finset ℤ} {b : Iset}

theorem memAny_nodes (hb : Represents b T) : MemAny b.nodes z ↔ z ∈ T :=
  mem_iff_nodes.symm.trans (hb.mem z)

theorem tells_intersection_iff (ha : Represents t S) (hb : Represents b T)
    (hrun : isetIntersection t b = some is) :
    Tells is (S ∩ T) ↔ ∀ x behind, OverrunAt t b.nodes x behind → ¬ (x ∈ S ∧ x ∈ T) := by
  obtain ⟨is', hrun', hordered, hmem⟩ := isetIntersection_spec ha.ordered hb.ordered
  obtain rfl : is' = is := Option.some.inj (hrun'.symm.trans hrun)
  have hholds : ∀ z, is'.Mem z ↔ z ∈ S ∧ z ∈ T ∧ ¬ ∃ behind, OverrunAt t b.nodes z behind := by
    intro z
    rw [hmem, ha.mem, Removes, memAny_nodes hb]
  constructor
  · rintro htells x behind hover hx
    have hcontains := (htells.contains x).mpr (Finset.mem_inter.mpr hx)
    rw [contains_iff hordered, hholds] at hcontains
    exact hcontains.2.2 ⟨behind, hover⟩
  · intro hharmless
    refine Represents.tells ⟨hordered, fun z => ?_⟩
    rw [hholds, Finset.mem_inter]
    constructor
    · exact fun h => ⟨h.1, h.2.1⟩
    · rintro hz
      exact ⟨hz.1, hz.2, fun hover => hover.elim fun behind h => hharmless z behind h hz⟩

theorem tells_difference_iff (ha : Represents t S) (hb : Represents b T) :
    Tells (isetDifference t b) (S \ T) ↔
      ∀ x behind, OverrunAt t b.nodes x behind → ¬ (x ∈ S ∧ x ∈ T) ∧ ¬ behind.Mem x := by
  have hdiffers := differenceTree_spec ha.ordered (ordered_iff_inOrder.mp hb.ordered)
  constructor
  · rintro htells x behind hover
    have hboth : ¬ (x ∈ S ∧ x ∈ T) := by
      rintro ⟨hs, ht⟩
      have hlisted : x ∈ isetToList (isetDifference t b) := by
        rw [isetToList_eq, isetDifference, hdiffers.mem, ha.mem]
        exact ⟨hs, fun h => h.2 ⟨behind, hover⟩⟩
      exact (Finset.mem_sdiff.mp ((htells.mem x).mp hlisted)).2 ht
    refine ⟨hboth, fun hx => ?_⟩
    have hs : x ∈ S := (ha.mem x).mp (hover.mem hx)
    have hcontains := (htells.contains x).mpr
      (Finset.mem_sdiff.mpr ⟨hs, fun ht => hboth ⟨hs, ht⟩⟩)
    rw [isetDifference, hdiffers.contains] at hcontains
    exact hcontains.2 ⟨behind, hover, hx⟩
  · intro hharmless
    have hholds : ∀ z, t.Mem z ∧ ¬ Removes t b.nodes z ↔ z ∈ S \ T := by
      intro z
      rw [ha.mem, Removes, memAny_nodes hb, Finset.mem_sdiff]
      refine and_congr_right fun hs => not_congr ⟨fun h => h.1, fun ht => ⟨ht, ?_⟩⟩
      rintro ⟨behind, hover⟩
      exact (hharmless z behind hover).1 ⟨hs, ht⟩
    refine ⟨fun z => ?_, ?_, fun z => ?_⟩
    · rw [isetDifference, hdiffers.contains, hholds]
      refine and_iff_left ?_
      rintro ⟨behind, hover, hz⟩
      exact (hharmless z behind hover).2 hz
    · rw [isetToList_eq]
      exact hdiffers.list
    · rw [isetToList_eq, isetDifference, hdiffers.mem, hholds]

/-- All ranges of the set lie among the `2 ^ 62 - 1` integers from `lo` on.  Then every shift count
that is formed from their ends is a fixnum, as `arithmetic-shift` asks for. -/
def Iset.Within (is : Iset) (lo : ℤ) : Prop :=
  ∀ a ∈ is.nodes, lo ≤ a.start ∧ 1 + (a.stop - lo) < 2 ^ 62

instance (is : Iset) (lo : ℤ) : Decidable (is.Within lo) :=
  inferInstanceAs (Decidable (∀ a ∈ is.nodes, _))

end ChibiScheme.IntegerSet
