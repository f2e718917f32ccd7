import Mathlib
import ChibiScheme.Iset.Adjoin
import ChibiScheme.Lib.Bits

/-!
# Deleting an integer

A deletion takes one integer away and keeps every bound.
-/

namespace ChibiScheme.IntegerSet

open Iset

/-- The set `is'` is `is` without `n`. -/
structure Reduced (is : Iset) (n : ℤ) (is' : Iset) : Prop where
  ordered : is'.Ordered
  mem : ∀ x, is'.Mem x ↔ is.Mem x ∧ x ≠ n
  before : ∀ c, is.endsBefore c = true → is'.endsBefore c = true
  behind : ∀ c, is.startsBehind c = true → is'.startsBehind c = true

variable {a a' : Node} {left right : Iset} {n : ℤ}

theorem ne_of_endsBefore {x : ℤ} (hleft : left.endsBefore a.start = true) (hn : a.start ≤ n)
    (hmem : left.Mem x) : x ≠ n := by
  have hlt := lt_of_endsBefore hleft hmem
  omega

theorem ne_of_startsBehind {x : ℤ} (hright : right.startsBehind a.stop = true) (hn : n ≤ a.stop)
    (hmem : right.Mem x) : x ≠ n := by
  have hlt := lt_of_startsBehind hright hmem
  omega

theorem reduced_of_node (hordered : (node a left right).Ordered) (hlow : a.start ≤ n)
    (hhigh : n ≤ a.stop) (hok : a'.Ok) (hstart : a.start ≤ a'.start) (hstop : a'.stop ≤ a.stop)
    (hmem : ∀ x, a'.Mem x ↔ a.Mem x ∧ x ≠ n) :
    Reduced (node a left right) n (node a' left right) where
  ordered := ⟨hok, endsBefore_mono hordered.2.1 hstart, startsBehind_mono hordered.2.2.1 hstop,
    hordered.2.2.2⟩
  mem x := by
    have hleft := fun h : left.Mem x => ne_of_endsBefore hordered.2.1 hlow h
    have hright := fun h : right.Mem x => ne_of_startsBehind hordered.2.2.1 hhigh h
    show a'.Mem x ∨ left.Mem x ∨ right.Mem x ↔ (a.Mem x ∨ left.Mem x ∨ right.Mem x) ∧ x ≠ n
    rw [hmem, or_and_right, or_and_right, and_iff_left_of_imp hleft, and_iff_left_of_imp hright]
  before c hbefore := by
    rw [endsBefore_node] at hbefore ⊢
    exact ⟨by omega, hbefore.2⟩
  behind c hbehind := by
    rw [startsBehind_node] at hbehind ⊢
    exact ⟨by omega, hbehind.2⟩

theorem reduced_left {left' : Iset} (hordered : (node a left right).Ordered)
    (hleft : Reduced left n left') (hlt : n < a.start) :
    Reduced (node a left right) n (node a left' right) where
  ordered := ⟨hordered.1, hleft.before _ hordered.2.1, hordered.2.2.1, hleft.ordered,
    hordered.2.2.2.2⟩
  mem x := by
    have hle := hordered.1.le
    have hnode : a.Mem x → x ≠ n := fun h => (lt_of_lt_of_le hlt h.1).ne'
    have hright := fun h : right.Mem x => ne_of_startsBehind hordered.2.2.1 (by omega : n ≤ a.stop) h
    show a.Mem x ∨ left'.Mem x ∨ right.Mem x ↔ (a.Mem x ∨ left.Mem x ∨ right.Mem x) ∧ x ≠ n
    rw [hleft.mem, or_and_right, or_and_right, and_iff_left_of_imp hnode,
      and_iff_left_of_imp hright]
  before c hbefore := by
    rw [endsBefore_node] at hbefore ⊢
    exact ⟨hbefore.1, hleft.before c hbefore.2.1, hbefore.2.2⟩
  behind c hbehind := by
    rw [startsBehind_node] at hbehind ⊢
    exact ⟨hbehind.1, hleft.behind c hbehind.2.1, hbehind.2.2⟩

theorem reduced_right {right' : Iset} (hordered : (node a left right).Ordered)
    (hright : Reduced right n right') (hlt : a.stop < n) :
    Reduced (node a left right) n (node a left right') where
  ordered := ⟨hordered.1, hordered.2.1, hright.behind _ hordered.2.2.1, hordered.2.2.2.1,
    hright.ordered⟩
  mem x := by
    have hle := hordered.1.le
    have hnode : a.Mem x → x ≠ n := fun h => (lt_of_le_of_lt h.2.1 hlt).ne
    have hleft := fun h : left.Mem x => ne_of_endsBefore hordered.2.1 (by omega : a.start ≤ n) h
    show a.Mem x ∨ left.Mem x ∨ right'.Mem x ↔ (a.Mem x ∨ left.Mem x ∨ right.Mem x) ∧ x ≠ n
    rw [hright.mem, or_and_right, or_and_right, and_iff_left_of_imp hnode,
      and_iff_left_of_imp hleft]
  before c hbefore := by
    rw [endsBefore_node] at hbefore ⊢
    exact ⟨hbefore.1, hbefore.2.1, hright.before c hbefore.2.2⟩
  behind c hbehind := by
    rw [startsBehind_node] at hbehind ⊢
    exact ⟨hbehind.1, hbehind.2.1, hright.behind c hbehind.2.2⟩

/-! ## In the node -/

theorem clear_spec {start stop : ℤ} {bits : ℕ} (hok : (⟨start, stop, some bits⟩ : Node).Ok)
    (hlow : start ≤ n) :
    (⟨start, stop, some (bitClear bits (n - start))⟩ : Node).Ok ∧
      ∀ x, (⟨start, stop, some (bitClear bits (n - start))⟩ : Node).Mem x ↔
        (⟨start, stop, some bits⟩ : Node).Mem x ∧ x ≠ n := by
  have hbit := testBit_bitClear bits (sub_nonneg.mpr hlow)
  refine ⟨⟨hok.le, ?_⟩, fun x => ?_⟩
  · rintro _ ⟨⟩ i hi
    rw [hbit, Bool.and_eq_true] at hi
    exact hok.bits bits rfl i hi.1
  · rw [Node.mem_of_bits, Node.mem_of_bits, hbit, Bool.and_eq_true, Bool.not_eq_true',
      decide_eq_false_iff_not]
    constructor
    · rintro ⟨h₁, h₂, h₃, hne⟩
      exact ⟨⟨h₁, h₂, h₃⟩, by omega⟩
    · rintro ⟨⟨h₁, h₂, h₃⟩, hne⟩
      exact ⟨h₁, h₂, h₃, by omega⟩

theorem range_ok {start stop : ℤ} (hle : start ≤ stop) : (⟨start, stop, none⟩ : Node).Ok :=
  ⟨hle, fun _ h => by cases h⟩

theorem insertRight_spec {start stop : ℤ}
    (hordered : (node ⟨start, stop, none⟩ left right).Ordered) (hlow : start < n)
    (hhigh : n < stop) :
    Reduced (node ⟨start, stop, none⟩ left right) n
      (insertRight ⟨start, n - 1, none⟩ left right ⟨n + 1, stop, none⟩) := by
  obtain ⟨hok, hleft, hright, hleftOrdered, hrightOrdered⟩ := hordered
  -- the right subtree lies behind the new node, so it becomes its right subtree
  have hinsert : insertRight ⟨start, n - 1, none⟩ left right ⟨n + 1, stop, none⟩ =
      node ⟨start, n - 1, none⟩ left (node ⟨n + 1, stop, none⟩ absent right) := by
    cases right with
    | absent => rfl
    | node r rleft rright =>
      have hlt : stop < r.start := (startsBehind_node.mp hright).1
      show (if stop < r.start then _ else _) = _
      rw [if_pos hlt]
  rw [hinsert]
  have hleft : left.endsBefore start = true := hleft
  have hright : right.startsBehind stop = true := hright
  refine ⟨⟨range_ok (by omega), hleft, ?_, hleftOrdered, ?_⟩, fun x => ?_, ?_, ?_⟩
  · exact startsBehind_node.mpr ⟨show n - 1 < n + 1 by omega, rfl,
      startsBehind_mono hright (show n - 1 ≤ stop by omega)⟩
  · exact ⟨range_ok (by omega), rfl, hright, trivial, hrightOrdered⟩
  · have hleft : left.Mem x → x ≠ n := fun h => by
      have hlt := lt_of_endsBefore hleft h
      omega
    have hright : right.Mem x → x ≠ n := fun h => by
      have hlt := lt_of_startsBehind hright h
      omega
    show Node.Mem _ x ∨ left.Mem x ∨ Node.Mem _ x ∨ False ∨ right.Mem x ↔
      (Node.Mem _ x ∨ left.Mem x ∨ right.Mem x) ∧ x ≠ n
    rw [Node.mem_of_range, Node.mem_of_range, Node.mem_of_range, false_or, or_and_right,
      or_and_right, and_iff_left_of_imp hleft, and_iff_left_of_imp hright, or_left_comm,
      or_left_comm (b := left.Mem x), ← or_assoc (c := right.Mem x)]
    have hparts : (start ≤ x ∧ x ≤ n - 1) ∨ (n + 1 ≤ x ∧ x ≤ stop) ↔
        (start ≤ x ∧ x ≤ stop) ∧ x ≠ n := by omega
    rw [hparts]
  · intro c hbefore
    rw [endsBefore_node] at hbefore
    have hlt : stop < c := hbefore.1
    exact endsBefore_node.mpr ⟨show n - 1 < c by omega, hbefore.2.1,
      endsBefore_node.mpr ⟨hlt, rfl, hbefore.2.2⟩⟩
  · intro c hbehind
    rw [startsBehind_node] at hbehind
    have hlt : c < start := hbehind.1
    exact startsBehind_node.mpr ⟨hlt, hbehind.2.1,
      startsBehind_node.mpr ⟨show c < n + 1 by omega, rfl, hbehind.2.2⟩⟩

theorem deleteHere_spec (hordered : (node a left right).Ordered) (hlow : a.start ≤ n)
    (hhigh : n ≤ a.stop) : Reduced (node a left right) n (deleteHere a left right n) := by
  obtain ⟨start, stop, bits⟩ := a
  cases bits with
  | some bits =>
    obtain ⟨hok, hmem⟩ := clear_spec hordered.1 hlow
    exact reduced_of_node hordered hlow hhigh hok (le_refl _) (le_refl _) hmem
  | none =>
    have hlow : start ≤ n := hlow
    have hhigh : n ≤ stop := hhigh
    unfold deleteHere
    simp only
    split
    · rename_i hstart
      split
      · rename_i hstop
        -- nothing is left: the node stays as an empty one
        refine reduced_of_node hordered hlow hhigh ⟨by show start ≤ stop; omega, ?_⟩ (le_refl _)
          (le_refl _) fun x => ?_
        · rintro _ ⟨⟩ i hi
          rw [Nat.zero_testBit] at hi
          cases hi
        · rw [Node.mem_of_bits, Node.mem_of_range, Nat.zero_testBit]
          show _ ↔ (start ≤ x ∧ x ≤ stop) ∧ x ≠ n
          constructor
          · intro h
            cases h.2.2
          · omega
      · rename_i hstop
        refine reduced_of_node hordered hlow hhigh (range_ok (by omega))
          (show start ≤ n + 1 by omega) (le_refl _) fun x => ?_
        rw [Node.mem_of_range, Node.mem_of_range]
        omega
    · rename_i hstart
      split
      · refine reduced_of_node hordered hlow hhigh (range_ok (by omega)) (le_refl _)
          (show n - 1 ≤ stop by omega) fun x => ?_
        rw [Node.mem_of_range, Node.mem_of_range]
        omega
      · exact insertRight_spec hordered (by omega) (by omega)

/-! ## In the tree -/

theorem isetDelete1_spec {is : Iset} (hordered : is.Ordered) (n : ℤ) :
    Reduced is n (isetDelete1 is n) := by
  induction is with
  | absent => exact ⟨trivial, fun x => ⟨False.elim, fun h => h.1⟩, fun _ h => h, fun _ h => h⟩
  | node a left right ihleft ihright =>
    rw [isetDelete1]
    split
    · rename_i hlt
      exact reduced_left hordered (ihleft hordered.2.2.2.1) hlt
    split
    · rename_i hgt
      exact reduced_right hordered (ihright hordered.2.2.2.2) hgt
    exact deleteHere_spec hordered (by omega) (by omega)

theorem isetDelete_spec {is : Iset} (hordered : is.Ordered) (ls : List ℤ) :
    (isetDelete is ls).Ordered ∧ ∀ x, (isetDelete is ls).Mem x ↔ is.Mem x ∧ x ∉ ls := by
  induction ls generalizing is with
  | nil => exact ⟨hordered, fun x => by simp [isetDelete]⟩
  | cons n ls ih =>
    have hfirst := isetDelete1_spec hordered n
    obtain ⟨hrest, hmem⟩ := ih hfirst.ordered
    refine ⟨hrest, fun x => (hmem x).trans ?_⟩
    rw [hfirst.mem, List.mem_cons, not_or, and_assoc]

/-! ## What a set holds

For a set in order the membership test, the list and the size all agree with the integers that its
nodes hold. -/

variable {is : Iset} {x : ℤ} {A : Type}

/-! ## Membership -/

theorem contains_iff (hordered : is.Ordered) : is.contains x = true ↔ is.Mem x := by
  induction is with
  | absent => simp [contains, Iset.Mem]
  | node a left right ihleft ihright =>
    have hale := hordered.1.le
    have hnotLeft : a.start ≤ x → ¬ left.Mem x := fun hle hmem =>
      absurd (lt_of_endsBefore hordered.2.1 hmem) (not_lt.mpr hle)
    have hnotRight : x ≤ a.stop → ¬ right.Mem x := fun hle hmem =>
      absurd (lt_of_startsBehind hordered.2.2.1 hmem) (not_lt.mpr hle)
    show _ ↔ a.Mem x ∨ left.Mem x ∨ right.Mem x
    rw [contains]
    split
    · rename_i hlt
      have hnode : ¬ a.Mem x := fun h => absurd h.1 (not_le.mpr hlt)
      rw [ihleft hordered.2.2.2.1]
      constructor
      · exact fun h => .inr (.inl h)
      · exact fun h => (h.resolve_left hnode).resolve_right (hnotRight (by omega))
    split
    · rename_i hgt
      have hnode : ¬ a.Mem x := fun h => absurd h.2.1 (not_le.mpr hgt)
      rw [ihright hordered.2.2.2.2]
      constructor
      · exact fun h => .inr (.inr h)
      · exact fun h => (h.resolve_left hnode).resolve_left (hnotLeft (by omega))
    rename_i hlow hhigh
    have hnode : a.Mem x ∨ left.Mem x ∨ right.Mem x ↔ a.Mem x := by
      constructor
      · intro h
        refine h.resolve_right ?_
        rintro (h | h)
        · exact hnotLeft (by omega) h
        · exact hnotRight (by omega) h
      · exact .inl
    rw [hnode]
    obtain ⟨start, stop, bits⟩ := a
    have hrange : start ≤ x ∧ x ≤ stop := ⟨not_lt.mp hlow, not_lt.mp hhigh⟩
    cases bits with
    | none => exact iff_of_true rfl (Node.mem_of_range.mpr hrange)
    | some bits =>
      rw [Node.mem_of_bits]
      exact ⟨fun h => ⟨hrange.1, hrange.2, h⟩, fun h => h.2.2⟩

/-! ## The list -/

/-- The members of a node. -/
def Node.toList (a : Node) : List ℤ :=
  match a.bits with
  | some bits => bits.bitIndices.map fun i : ℕ => a.start + i
  | none => (List.range (a.stop + 1 - a.start).toNat).map fun i : ℕ => a.start + i

/-- The integers of a set in the order of its nodes. -/
def Iset.inOrder : Iset → List ℤ
  | absent => []
  | node a left right => left.inOrder ++ a.toList ++ right.inOrder

theorem foldBits_eq_foldl (kons : ℤ → A → A) (start : ℤ) {fuel n : ℕ}
    (hfuel : n.bitIndices.length < fuel) (acc : A) :
    foldBits kons start fuel n acc =
      n.bitIndices.foldl (fun acc (i : ℕ) => kons (start + i) acc) acc := by
  induction fuel generalizing n acc with
  | zero => exact absurd hfuel (Nat.not_lt_zero _)
  | succ fuel ih =>
    rw [foldBits]
    split
    · rename_i hzero
      rw [hzero, Nat.bitIndices_zero, List.foldl_nil]
    · rename_i hzero
      obtain ⟨k, hindices, hsub⟩ := Bits.bitIndices_eq_cons hzero
      have hfirst : start + ((n - (n &&& (n - 1))).size : ℤ) - 1 = start + k := by
        rw [hsub, Nat.size_pow, Nat.cast_add, Nat.cast_one]
        omega
      rw [hindices, List.length_cons] at hfuel
      show foldBits kons start fuel (n &&& (n - 1))
        (kons (start + ((n - (n &&& (n - 1))).size : ℤ) - 1) acc) = _
      rw [ih (by omega), hindices, List.foldl_cons, hfirst]

theorem foldRange_eq_foldl (kons : ℤ → A → A) (count : ℕ) (start : ℤ) (acc : A) :
    foldRange kons count start acc =
      (List.range count).foldl (fun acc (i : ℕ) => kons (start + i) acc) acc := by
  induction count generalizing start acc with
  | zero => rfl
  | succ count ih =>
    rw [foldRange, ih, List.range_succ_eq_map, List.foldl_cons, List.foldl_map]
    simp only [Nat.cast_zero, add_zero, Nat.cast_succ]
    congr 1
    funext acc i
    congr 1
    omega

theorem isetFold_eq_foldl (kons : ℤ → A → A) (knil : A) (is : Iset) :
    isetFold kons knil is = is.inOrder.foldl (fun acc n => kons n acc) knil := by
  unfold isetFold
  induction is generalizing knil with
  | absent => rfl
  | node a left right ihleft ihright =>
    rw [isetFoldNode, ihleft, ihright, inOrder, List.foldl_append, List.foldl_append]
    congr 1
    obtain ⟨start, stop, bits⟩ := a
    cases bits with
    | some bits =>
      have hfuel := Bits.length_bitIndices_le_size bits
      show foldBits kons start (bits.size + 1) bits _ = _
      rw [foldBits_eq_foldl kons start (by omega), Node.toList, List.foldl_map]
    | none =>
      show foldRange kons (stop + 1 - start).toNat start _ = _
      rw [foldRange_eq_foldl, Node.toList, List.foldl_map]

theorem isetToList_eq (is : Iset) : isetToList is = is.inOrder := by
  have hcons : ∀ (l acc : List ℤ), l.foldl (fun acc n => n :: acc) acc = l.reverse ++ acc := by
    intro l
    induction l with
    | nil => exact fun acc => rfl
    | cons n l ih =>
      intro acc
      rw [List.foldl_cons, ih, List.reverse_cons, List.append_assoc, List.singleton_append]
  unfold isetToList
  rw [isetFold_eq_foldl, hcons, List.append_nil, List.reverse_reverse]

theorem mem_toList (hok : a.Ok) : x ∈ a.toList ↔ a.Mem x := by
  obtain ⟨start, stop, bits⟩ := a
  unfold Node.toList
  cases bits with
  | some bits =>
    rw [Node.mem_of_bits, List.mem_map]
    constructor
    · rintro ⟨i, hi, rfl⟩
      rw [Nat.mem_bitIndices] at hi
      have hstop : start + (i : ℤ) ≤ stop := hok.bits bits rfl i hi
      exact ⟨show start ≤ start + (i : ℤ) by omega, hstop, by simpa using hi⟩
    · rintro ⟨hlow, hhigh, hbit⟩
      exact ⟨(x - start).toNat, Nat.mem_bitIndices.mpr hbit, by simp only; omega⟩
  | none =>
    rw [Node.mem_of_range, List.mem_map]
    simp only [List.mem_range]
    constructor
    · rintro ⟨i, hi, rfl⟩
      omega
    · rintro ⟨hlow, hhigh⟩
      exact ⟨(x - start).toNat, by omega, by omega⟩

theorem toList_pairwise (a : Node) : a.toList.Pairwise (· < ·) := by
  obtain ⟨start, stop, bits⟩ := a
  have hmap : ∀ l : List ℕ, l.Pairwise (· < ·) →
      (l.map fun i : ℕ => start + (i : ℤ)).Pairwise (· < ·) := by
    intro l hl
    rw [List.pairwise_map]
    exact hl.imp fun h => by omega
  unfold Node.toList
  cases bits with
  | some bits => exact hmap _ Nat.bitIndices_sorted.pairwise
  | none => exact hmap _ List.pairwise_lt_range

theorem mem_inOrder (hordered : is.Ordered) : x ∈ is.inOrder ↔ is.Mem x := by
  induction is with
  | absent => simp [inOrder, Iset.Mem]
  | node a left right ihleft ihright =>
    show _ ↔ a.Mem x ∨ left.Mem x ∨ right.Mem x
    rw [inOrder, List.mem_append, List.mem_append, ihleft hordered.2.2.2.1,
      ihright hordered.2.2.2.2, mem_toList hordered.1, or_comm (a := left.Mem x), or_assoc]

theorem inOrder_pairwise (hordered : is.Ordered) : is.inOrder.Pairwise (· < ·) := by
  induction is with
  | absent => exact List.Pairwise.nil
  | node a left right ihleft ihright =>
    obtain ⟨hok, hleft, hright, hleftOrdered, hrightOrdered⟩ := hordered
    have hale := hok.le
    have hbefore : ∀ y ∈ left.inOrder, y < a.start := fun y hy =>
      lt_of_endsBefore hleft ((mem_inOrder hleftOrdered).mp hy)
    have hbehind : ∀ y ∈ right.inOrder, a.stop < y := fun y hy =>
      lt_of_startsBehind hright ((mem_inOrder hrightOrdered).mp hy)
    have hinside : ∀ y ∈ a.toList, a.start ≤ y ∧ y ≤ a.stop := fun y hy =>
      have h := (mem_toList hok).mp hy
      ⟨h.1, h.2.1⟩
    rw [inOrder, List.pairwise_append, List.pairwise_append]
    refine ⟨⟨ihleft hleftOrdered, toList_pairwise a, ?_⟩, ihright hrightOrdered, ?_⟩
    · intro y hy z hz
      exact lt_of_lt_of_le (hbefore y hy) (hinside z hz).1
    · intro y hy z hz
      have hz := hbehind z hz
      rcases List.mem_append.mp hy with hy | hy
      · have hy := hbefore y hy
        omega
      · have hy := hinside y hy
        omega

/-! ## The size -/

theorem nodeSize_eq (hok : a.Ok) : nodeSize a = a.toList.length := by
  obtain ⟨start, stop, bits⟩ := a
  have hle : start ≤ stop := hok.le
  unfold nodeSize Node.toList
  cases bits with
  | some bits => simp only [List.length_map]
  | none =>
    simp only [List.length_map, List.length_range]
    omega

theorem isetSize_eq (hordered : is.Ordered) : isetSize is = is.inOrder.length := by
  have hfold : ∀ (is : Iset) (acc : ℤ), is.Ordered →
      isetFoldNode
        (fun is acc =>
          match is with
          | absent => acc
          | node a _ _ => acc + nodeSize a)
        acc is = acc + is.inOrder.length := by
    intro is
    induction is with
    | absent =>
      intro acc _
      show acc = acc + ((0 : ℕ) : ℤ)
      omega
    | node a left right ihleft ihright =>
      intro acc hordered
      rw [isetFoldNode, ihleft _ hordered.2.2.2.1]
      show isetFoldNode _ (acc + left.inOrder.length + nodeSize a) right = _
      rw [ihright _ hordered.2.2.2.2, nodeSize_eq hordered.1, inOrder, List.length_append,
        List.length_append, Nat.cast_add, Nat.cast_add]
      omega
  exact (hfold is 0 hordered).trans (zero_add _)

end ChibiScheme.IntegerSet
