import ChibiScheme.Iset.Nodes

/-!
# Adding a node

An addition that keeps the order adds the integers of the node, and nothing else changes: the ranges
stay between the bounds that held for the set and for the node.
-/

namespace ChibiScheme.IntegerSet

open Iset

/-- The set `is'` is `is` together with some integers from `low` to `high`. -/
structure Extended (is : Iset) (low high : ℤ) (P : ℤ → Prop) (is' : Iset) : Prop where
  ordered : is'.Ordered
  mem : ∀ x, is'.Mem x ↔ is.Mem x ∨ P x
  before : ∀ c, is.endsBefore c = true → high < c → is'.endsBefore c = true
  behind : ∀ c, is.startsBehind c = true → c < low → is'.startsBehind c = true

/-- The set `is'` is `is` together with the integers of `b`. -/
abbrev Adjoined (is : Iset) (b : Node) (is' : Iset) : Prop :=
  Extended is b.start b.stop b.Mem is'

variable {a b c : Node} {left right bleft bright is : Iset} {x : ℤ} {fuel : ℕ}

theorem shouldMergeLeft_iff_of_ordered (hordered : left.Ordered) :
    shouldMergeLeft a left b = true ↔
      a.start - b.stop < bitsThresh ∧ left.endsBefore b.start = true := by
  unfold shouldMergeLeft
  rw [Bool.and_eq_true, decide_eq_true_eq]
  refine and_congr_right fun _ => ?_
  cases left with
  | absent => simp [endsBefore]
  | node l lleft lright =>
    simp only [decide_eq_true_eq]
    exact ⟨endsBefore_of_maxEnd hordered, maxEnd_lt⟩

theorem shouldMergeRight_iff_of_ordered (hordered : right.Ordered) :
    shouldMergeRight a right b = true ↔
      b.start - a.stop < bitsThresh ∧ right.startsBehind b.stop = true := by
  unfold shouldMergeRight
  rw [Bool.and_eq_true, decide_eq_true_eq]
  refine and_congr_right fun _ => ?_
  cases right with
  | absent => simp [startsBehind]
  | node r rleft rright =>
    simp only [decide_eq_true_eq]
    exact ⟨startsBehind_of_minStart hordered, lt_minStart⟩

theorem not_mem_of_isEmpty_node (hempty : (node b bleft bright).isEmpty = true) : ¬ b.Mem x :=
  fun hmem => not_mem_of_isEmpty hempty (.inl hmem)

/-! ## One node -/

theorem adjoined_of_node (hordered : (node a left right).Ordered) (hb : b.Ok)
    {a' : Node} (hok : a'.Ok) (hleft : left.endsBefore a'.start = true)
    (hright : right.startsBehind a'.stop = true) (hstart : min a.start b.start ≤ a'.start)
    (hstop : a'.stop ≤ max a.stop b.stop)
    (hmem : ∀ x, (node a' left right).Mem x ↔ (node a left right).Mem x ∨ b.Mem x) :
    Adjoined (node a left right) b (node a' left right) where
  ordered := ⟨hok, hleft, hright, hordered.2.2.2.1, hordered.2.2.2.2⟩
  mem := hmem
  before c hbefore hlt := by
    have hale := hordered.1.le
    have hble := hb.le
    rw [endsBefore_node] at hbefore ⊢
    exact ⟨by omega, hbefore.2⟩
  behind c hbehind hlt := by
    have hale := hordered.1.le
    have hble := hb.le
    rw [startsBehind_node] at hbehind ⊢
    exact ⟨by omega, hbehind.2⟩

theorem mem_node_of_merged {a' : Node} (hmem : ∀ x, a'.Mem x ↔ a.Mem x ∨ b.Mem x) (x : ℤ) :
    (node a' left right).Mem x ↔ (node a left right).Mem x ∨ b.Mem x := by
  show a'.Mem x ∨ left.Mem x ∨ right.Mem x ↔ (a.Mem x ∨ left.Mem x ∨ right.Mem x) ∨ b.Mem x
  rw [hmem]
  tauto

theorem adjoined_of_isEmpty (hempty : (node a left right).isEmpty = true)
    (hordered : (node a left right).Ordered) (hb : b.Ok) (hleft : left.endsBefore b.start = true)
    (hright : right.startsBehind b.stop = true) :
    Adjoined (node a left right) b (node b left right) := by
  refine adjoined_of_node hordered hb hb hleft hright (min_le_right _ _) (le_max_right _ _) ?_
  intro x
  have hnot : ¬ (node a left right).Mem x := not_mem_of_isEmpty hempty
  constructor
  · rintro (hmem | hmem)
    · exact .inr hmem
    · exact absurd (.inr hmem) hnot
  · rintro (hmem | hmem)
    · exact absurd hmem hnot
    · exact .inl hmem

theorem extended_of_nothing {low high : ℤ} {P : ℤ → Prop} (hordered : is.Ordered)
    (hnone : ∀ x, ¬ P x) : Extended is low high P is where
  ordered := hordered
  mem x := ⟨.inl, fun h => h.resolve_right (hnone x)⟩
  before _ hbefore _ := hbefore
  behind _ hbehind _ := hbehind

theorem adjoined_mergeLeft (hordered : (node a left right).Ordered) (hb : b.Ok)
    (hle : b.stop ≤ a.start) (hleft : left.endsBefore b.start = true) :
    Adjoined (node a left right) b (node (mergeLeft a b) left right) := by
  obtain ⟨hok, hmem⟩ := mergeLeft_spec hordered.1 hb hle
  exact adjoined_of_node hordered hb hok hleft hordered.2.2.1 (min_le_right _ _) (le_max_left _ _)
    (mem_node_of_merged hmem)

theorem adjoined_mergeRight (hordered : (node a left right).Ordered) (hb : b.Ok)
    (hle : a.stop ≤ b.start) (hright : right.startsBehind b.stop = true) :
    Adjoined (node a left right) b (node (mergeRight a b) left right) := by
  obtain ⟨hok, hmem⟩ := mergeRight_spec hordered.1 hb hle
  exact adjoined_of_node hordered hb hok hordered.2.1 hright (min_le_left _ _) (le_max_right _ _)
    (mem_node_of_merged hmem)

theorem adjoined_addInside (hordered : (node a left right).Ordered) (hb : b.Ok)
    (hstart : a.start ≤ b.start) (hstop : b.stop ≤ a.stop) :
    Adjoined (node a left right) b (node (addInside a b) left right) := by
  obtain ⟨hok, hstart', hstop', hmem⟩ := addInside_spec hordered.1 hb hstart hstop
  refine adjoined_of_node hordered hb hok ?_ ?_ ?_ ?_ (mem_node_of_merged hmem)
  · rw [hstart']
    exact hordered.2.1
  · rw [hstop']
    exact hordered.2.2.1
  · rw [hstart']
    exact min_le_left _ _
  · rw [hstop']
    exact le_max_left _ _

theorem adjoinNode_inside (hordered : (node a left right).Ordered) (hb : b.Ok)
    (hstart : a.start ≤ b.start) (hstop : b.stop ≤ a.stop) :
    ∃ a', adjoinNode (fuel + 1) (node a left right) (node b absent absent) =
        some (node a' left right) ∧ a.start ≤ a'.start ∧ a'.stop ≤ a.stop ∧
      Adjoined (node a left right) b (node a' left right) := by
  have hble := hb.le
  rw [adjoinNode]
  split
  · rename_i hempty
    exact ⟨b, rfl, hstart, hstop, adjoined_of_isEmpty hempty hordered hb
      (endsBefore_mono hordered.2.1 hstart) (startsBehind_mono hordered.2.2.1 hstop)⟩
  split
  · rename_i hempty
    exact ⟨a, rfl, le_refl _, le_refl _,
      extended_of_nothing hordered fun x => not_mem_of_isEmpty_node hempty⟩
  split
  · rename_i hbefore
    -- the range is the first integer of the node
    have hleft : left.endsBefore b.start = true := endsBefore_mono hordered.2.1 hstart
    have hmerge : shouldMergeLeft a left b = true :=
      (shouldMergeLeft_iff_of_ordered hordered.2.2.2.1).mpr ⟨by unfold bitsThresh; omega, hleft⟩
    rw [if_pos hmerge]
    exact ⟨mergeLeft a b, rfl, hstart, le_refl _, adjoined_mergeLeft hordered hb hbefore hleft⟩
  split
  · rename_i hbehind
    -- the range is the last integer of the node
    have hright : right.startsBehind b.stop = true := startsBehind_mono hordered.2.2.1 hstop
    have hmerge : shouldMergeRight a right b = true :=
      (shouldMergeRight_iff_of_ordered hordered.2.2.2.2).mpr ⟨by unfold bitsThresh; omega, hright⟩
    rw [if_pos hmerge]
    exact ⟨mergeRight a b, rfl, le_refl _, hstop, adjoined_mergeRight hordered hb hbehind hright⟩
  rw [if_pos ⟨hstart, hstop⟩]
  obtain ⟨-, hstart', hstop', -⟩ := addInside_spec hordered.1 hb hstart hstop
  exact ⟨addInside a b, rfl, le_of_eq hstart'.symm, le_of_eq hstop',
    adjoined_addInside hordered hb hstart hstop⟩

/-! ## Subtrees -/

variable {low high low' high' : ℤ} {P Q : ℤ → Prop}

theorem extended_left {left' : Iset} (hordered : (node a left right).Ordered)
    (hleft : Extended left low high P left') (hlt : high < a.start) :
    Extended (node a left right) low high P (node a left' right) where
  ordered := ⟨hordered.1, hleft.before _ hordered.2.1 hlt, hordered.2.2.1, hleft.ordered,
    hordered.2.2.2.2⟩
  mem x := by
    show a.Mem x ∨ left'.Mem x ∨ right.Mem x ↔ (a.Mem x ∨ left.Mem x ∨ right.Mem x) ∨ P x
    rw [hleft.mem]
    tauto
  before c hbefore hc := by
    rw [endsBefore_node] at hbefore ⊢
    exact ⟨hbefore.1, hleft.before c hbefore.2.1 hc, hbefore.2.2⟩
  behind c hbehind hc := by
    rw [startsBehind_node] at hbehind ⊢
    exact ⟨hbehind.1, hleft.behind c hbehind.2.1 hc, hbehind.2.2⟩

theorem extended_right {right' : Iset} (hordered : (node a left right).Ordered)
    (hright : Extended right low high P right') (hlt : a.stop < low) :
    Extended (node a left right) low high P (node a left right') where
  ordered := ⟨hordered.1, hordered.2.1, hright.behind _ hordered.2.2.1 hlt, hordered.2.2.2.1,
    hright.ordered⟩
  mem x := by
    show a.Mem x ∨ left.Mem x ∨ right'.Mem x ↔ (a.Mem x ∨ left.Mem x ∨ right.Mem x) ∨ P x
    rw [hright.mem]
    tauto
  before c hbefore hc := by
    rw [endsBefore_node] at hbefore ⊢
    exact ⟨hbefore.1, hbefore.2.1, hright.before c hbefore.2.2 hc⟩
  behind c hbehind hc := by
    rw [startsBehind_node] at hbehind ⊢
    exact ⟨hbehind.1, hbehind.2.1, hright.behind c hbehind.2.2 hc⟩

namespace Extended

theorem trans {is' is'' : Iset} (h : Extended is low high P is')
    (h' : Extended is' low high Q is'') : Extended is low high (fun x => P x ∨ Q x) is'' where
  ordered := h'.ordered
  mem x := by rw [h'.mem, h.mem, or_assoc]
  before c hbefore hc := h'.before c (h.before c hbefore hc) hc
  behind c hbehind hc := h'.behind c (h.behind c hbehind hc) hc

theorem weaken {is' : Iset} (h : Extended is low' high' P is') (hlow : low ≤ low')
    (hhigh : high' ≤ high) (hP : ∀ x, P x ↔ Q x) : Extended is low high Q is' where
  ordered := h.ordered
  mem x := (h.mem x).trans (or_congr_right (hP x))
  before c hbefore hc := h.before c hbefore (lt_of_le_of_lt hhigh hc)
  behind c hbehind hc := h.behind c hbehind (lt_of_lt_of_le hc hlow)

theorem within {a' : Node} (h : Extended (node a left right) low' high' P (node a' left right))
    (hstart : a.start ≤ a'.start) (hstop : a'.stop ≤ a.stop) (hP : ∀ x, P x ↔ Q x) :
    Extended (node a left right) low high Q (node a' left right) where
  ordered := h.ordered
  mem x := (h.mem x).trans (or_congr_right (hP x))
  before c hbefore _ := by
    rw [endsBefore_node] at hbefore ⊢
    exact ⟨by omega, hbefore.2⟩
  behind c hbehind _ := by
    rw [startsBehind_node] at hbehind ⊢
    exact ⟨by omega, hbehind.2⟩

end Extended

/-! ## The tree -/

theorem adjoined_copyNode (hb : b.Ok) :
    Adjoined absent b (node b bleft bright).copyNode where
  ordered := ⟨hb, rfl, rfl, trivial, trivial⟩
  mem x := by
    show b.Mem x ∨ False ∨ False ↔ False ∨ b.Mem x
    tauto
  before c _ hc := endsBefore_node.mpr ⟨hc, rfl, rfl⟩
  behind c _ hc := startsBehind_node.mpr ⟨hc, rfl, rfl⟩

/-- Additions that keep the order of a subtree do what they should. -/
def AdjoinsTo (fuel : ℕ) (is : Iset) : Prop :=
  ∀ b bleft bright, Node.Ok b → adjoinKeepsOrder fuel is (node b bleft bright) = true →
    ∃ is', adjoinNode fuel is (node b bleft bright) = some is' ∧ Adjoined is b is'

theorem extended_before (hordered : (node a left right).Ordered) (hb : b.Ok)
    (hlt : a.start < b.stop) (hleft : AdjoinsTo fuel left)
    (hkeeps : b.start ≥ a.start ∨ adjoinKeepsOrder fuel left
      (node (nodeExtract b b.start (a.start - 1)) absent absent) = true) :
    ∃ left',
      (if b.start < a.start then
        adjoinNode fuel left (node (nodeExtract b b.start (a.start - 1)) absent absent)
      else some left) = some left' ∧
      Extended (node a left right) b.start b.stop (fun x => b.Mem x ∧ x < a.start)
        (node a left' right) := by
  split
  · rename_i hstart
    obtain ⟨hok, hlow, hhigh, hmem⟩ := @nodeExtract_spec b hb b.start (a.start - 1)
      (by omega) (by omega) hb.le
    obtain ⟨left', hrun, hext⟩ := hleft _ _ _ hok (hkeeps.resolve_left (by omega))
    refine ⟨left', hrun, ?_⟩
    refine (extended_left hordered hext (by omega)).weaken hlow (by omega) fun x => ?_
    rw [hmem]
    constructor
    · exact fun h => ⟨h.1, by omega⟩
    · exact fun h => ⟨h.1, h.1.1, by omega⟩
  · rename_i hstart
    refine ⟨left, rfl, extended_of_nothing hordered fun x h => hstart ?_⟩
    exact lt_of_le_of_lt h.1.1 h.2

theorem extended_behind {stop : ℤ} (hordered : (node a left right).Ordered) (hb : b.Ok)
    (hle : a.stop ≤ stop) (hlt : b.start < stop) (hright : AdjoinsTo fuel right)
    (hkeeps : b.stop ≤ stop ∨ adjoinKeepsOrder fuel right
      (node (nodeExtract b (stop + 1) b.stop) absent absent) = true) :
    ∃ right',
      (if b.stop > stop then
        adjoinNode fuel right (node (nodeExtract b (stop + 1) b.stop) absent absent)
      else some right) = some right' ∧
      Extended (node a left right) b.start b.stop (fun x => b.Mem x ∧ stop < x)
        (node a left right') := by
  split
  · rename_i hstop
    obtain ⟨hok, hlow, hhigh, hmem⟩ := @nodeExtract_spec b hb (stop + 1) b.stop
      (by omega) hb.le (by omega)
    obtain ⟨right', hrun, hext⟩ := hright _ _ _ hok (hkeeps.resolve_left (by omega))
    refine ⟨right', hrun, ?_⟩
    refine (extended_right hordered hext (by omega)).weaken (by omega) hhigh fun x => ?_
    rw [hmem]
    constructor
    · exact fun h => ⟨h.1, by omega⟩
    · exact fun h => ⟨h.1, by omega, h.1.2.1⟩
  · rename_i hstop
    refine ⟨right, rfl, extended_of_nothing hordered fun x h => hstop ?_⟩
    exact lt_of_lt_of_le h.2 h.1.2.1

theorem adjoinNode_spec (hfuel : is.height < fuel) (hordered : is.Ordered) : AdjoinsTo fuel is := by
  induction fuel generalizing is with
  | zero => exact absurd hfuel (Nat.not_lt_zero _)
  | succ fuel ih =>
    intro b bleft bright hb hkeeps
    cases is with
    | absent => exact ⟨_, rfl, adjoined_copyNode hb⟩
    | node a left right =>
      have hdepth : left.height < fuel ∧ right.height < fuel := by
        simp only [height] at hfuel
        omega
      have hleft := ih hdepth.1 hordered.2.2.2.1
      have hright := ih hdepth.2 hordered.2.2.2.2
      have hale := hordered.1.le
      rw [adjoinKeepsOrder] at hkeeps
      rw [adjoinNode]
      split at hkeeps
      · rename_i hempty
        rw [Bool.and_eq_true] at hkeeps
        exact ⟨_, if_pos hempty, adjoined_of_isEmpty hempty hordered hb hkeeps.1 hkeeps.2⟩
      rename_i hempty
      rw [if_neg hempty]
      split at hkeeps
      · rename_i hnothing
        exact ⟨_, if_pos hnothing,
          extended_of_nothing hordered fun x => not_mem_of_isEmpty_node hnothing⟩
      rename_i hnothing
      rw [if_neg hnothing]
      split at hkeeps
      · rename_i hbefore
        rw [if_pos hbefore]
        split
        · rename_i hmerge
          have hleft := ((shouldMergeLeft_iff_of_ordered hordered.2.2.2.1).mp hmerge).2
          exact ⟨_, rfl, adjoined_mergeLeft hordered hb hbefore hleft⟩
        · rename_i hmerge
          rw [Bool.eq_false_of_not_eq_true hmerge, Bool.false_or, Bool.and_eq_true,
            decide_eq_true_eq] at hkeeps
          obtain ⟨left', hrun, hext⟩ := hleft _ _ _ hb hkeeps.2
          exact ⟨_, by rw [hrun]; rfl, extended_left hordered hext hkeeps.1⟩
      rename_i hbefore
      rw [if_neg hbefore]
      split at hkeeps
      · rename_i hbehind
        rw [if_pos hbehind]
        split
        · rename_i hmerge
          have hright := ((shouldMergeRight_iff_of_ordered hordered.2.2.2.2).mp hmerge).2
          exact ⟨_, rfl, adjoined_mergeRight hordered hb hbehind hright⟩
        · rename_i hmerge
          rw [Bool.eq_false_of_not_eq_true hmerge, Bool.false_or, Bool.and_eq_true,
            decide_eq_true_eq] at hkeeps
          obtain ⟨right', hrun, hext⟩ := hright _ _ _ hb hkeeps.2
          exact ⟨_, by rw [hrun]; rfl, extended_right hordered hext hkeeps.1⟩
      rename_i hbehind
      rw [if_neg hbehind]
      split at hkeeps
      · rename_i hinside
        rw [if_pos hinside]
        exact ⟨_, rfl, adjoined_addInside hordered hb hinside.1 hinside.2⟩
      rename_i hinside
      rw [if_neg hinside]
      rw [Bool.and_eq_true, Bool.or_eq_true, Bool.or_eq_true, decide_eq_true_eq,
        decide_eq_true_eq] at hkeeps
      -- the three parts of the range, one after the other
      obtain ⟨left', hrunLeft, hextLeft⟩ :=
        extended_before hordered hb (by omega) hleft hkeeps.1
      obtain ⟨hok, hlow, hhigh, hmem⟩ := @nodeExtract_spec b hb a.start a.stop
        hale (by omega) (by omega)
      obtain ⟨fuel, rfl⟩ : ∃ n, fuel = n + 1 := ⟨fuel - 1, by omega⟩
      obtain ⟨a', hrunInside, hstart', hstop', hextInside⟩ :=
        @adjoinNode_inside _ _ _ _ fuel hextLeft.ordered hok hlow hhigh
      obtain ⟨right', hrunRight, hextRight⟩ :=
        extended_behind hextInside.ordered hb hstop' (by omega) hright hkeeps.2
      refine ⟨node a' left' right', ?_, ?_⟩
      · simp only [hrunLeft, Option.bind_some, hrunInside, hrunRight, Option.map_some]
      · have hext := (hextLeft.trans (hextInside.within hstart' hstop' hmem)).trans hextRight
        refine hext.weaken (le_refl _) (le_refl _) fun x => ?_
        have hparts : x < a.start ∨ (a.start ≤ x ∧ x ≤ a.stop) ∨ a.stop < x := by omega
        tauto

end ChibiScheme.IntegerSet
