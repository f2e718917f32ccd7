import ChibiScheme.Iset.Rank

/-!
# Optimizing a set

`iset-balance` builds a balanced tree from the nodes of a set.  `iset-optimize` cuts the bitmap of a node
into its long runs, which become ranges, and what lies between them; the pieces are put in place of the
node and to its left.  Empty nodes without subtrees are removed.

A bitmap is compared with that of the whole range, which is made by a shift: for a node whose range has
`2 ^ 62` integers or more the count is no fixnum, and `arithmetic-shift` raises an exception.  Only an
empty bitmap is kept with so wide a range.
-/

namespace ChibiScheme.IntegerSet

open Iset List

/-! ## Balancing -/

/-- The loop `reduce` of `iset-balance`: the node in the middle becomes the root. -/
def reduceNodes (nodes : List Node) : Iset :=
  match nodes with
  | [] => absent
  | [a] => node a absent absent
  | a :: b :: ls =>
    let nodes := a :: b :: ls
    let mid := nodes.length / 2
    have hmid : mid < nodes.length := Nat.div_lt_self (Nat.succ_pos _) (by decide)
    node nodes[mid] (reduceNodes (nodes.take mid)) (reduceNodes (nodes.drop (mid + 1)))
termination_by nodes.length
decreasing_by
  · simp only [length_take, length_cons]
    omega
  · simp only [length_drop, length_cons]
    omega

/-- `iset-balance` -/
def isetBalance (is : Iset) : Iset :=
  let nodes := isetFoldNode
    (fun is nodes =>
      match is with
      | absent => nodes
      | node a _ _ => a :: nodes)
    [] is
  reduceNodes nodes.reverse

/-! ## Optimizing a node -/

/-- The loop of `iset-trim-and-squash-bits!`. -/
def trimLoop (stop : ℤ) (bits : ℕ) (start : ℤ) : Node :=
  if bits = 0 then ⟨start, stop, some 0⟩
  else if start ≥ stop then ⟨start, if shift bits (-1) % 2 = 0 then start else stop, none⟩
  else if bits % 2 = 0 then trimLoop stop (shift bits (-1)) (start + 1)
  else ⟨start, stop, some bits⟩
termination_by (stop - start).toNat

/-- `iset-trim-and-squash-bits!` -/
def trimAndSquashBits (a : Node) : Node :=
  match a.bits with
  | some bits => squashBits (trimLoop a.stop bits a.start)
  | none => squashBits a

/-- `bit-field` -/
def bitField (n start stop : ℕ) : ℕ :=
  shift n (-start) &&& (shift 1 ((stop : ℤ) - start) - 1)

/-- `iset-insert-left!` on the subtrees of the new node: the left subtree goes to one of its sides. -/
def subtreesOfNew (left : Iset) (new : Node) : Iset × Iset :=
  match left with
  | absent => (left, absent)
  | node l _ _ => if new.stop < l.start then (absent, left) else (left, absent)

/-- The loop of `iset-node-replace!`: each node is inserted to the left of the one before. -/
def insertLefts : List Node → Node → Iset → Iset → Iset
  | [], a, left, right => node a left right
  | new :: ls, a, left, right =>
    node a (insertLefts ls new (subtreesOfNew left new).1 (subtreesOfNew left new).2) right

/-- `iset-node-replace!` -/
def nodeReplace (a : Node) (left right : Iset) : List Node → Iset
  | [] => node a left right
  | new :: ls => insertLefts ls new left right

/-- The loop of `iset-node-split-ranges!` over the runs from left to right.  The pieces are collected
from right to left. -/
def splitLoop (start stop : ℤ) (bits : ℕ) : List (ℕ × ℕ) → List Node → ℕ → List Node
  | (lo, hi) :: ls, nodes, last =>
    let nodes :=
      if last < lo then
        trimAndSquashBits ⟨start + last, start + lo - 1, some (bitField bits last lo)⟩ :: nodes
      else nodes
    splitLoop start stop bits ls (⟨start + lo, start + hi - 1, none⟩ :: nodes) hi
  | [], nodes, last =>
    if start + last < stop then
      trimAndSquashBits ⟨start + last, stop, some (shift bits (-last))⟩ :: nodes
    else nodes

mutual

/-- `full`: in a run of bits from `since` to `i`. -/
def full (bits len : ℕ) (span : ℤ) (i since : ℕ) (ranges : List (ℕ × ℕ)) : List (ℕ × ℕ) :=
  if i ≥ len ∨ ¬ isBitSet i bits then
    if (i : ℤ) - since ≥ span then sparse bits len span (i + 1) ((since, i) :: ranges)
    else sparse bits len span (i + 1) ranges
  else full bits len span (i + 1) since ranges
termination_by (len + 1 - i, 1)
decreasing_by
  · exact Prod.lex_def.mpr (by simp only; omega)
  · exact Prod.lex_def.mpr (by simp only; omega)
  · exact Prod.lex_def.mpr (by simp only; omega)

/-- `sparse`: bit `i - 1` is not set.  At the end the runs are returned, the last one first. -/
def sparse (bits len : ℕ) (span : ℤ) (i : ℕ) (ranges : List (ℕ × ℕ)) : List (ℕ × ℕ) :=
  if i ≥ len then ranges
  else if isBitSet i bits then full bits len span (i + 1) i ranges
  else sparse bits len span (i + 1) ranges
termination_by (len + 1 - i, 0)
decreasing_by
  · exact Prod.lex_def.mpr (by simp only; omega)
  · exact Prod.lex_def.mpr (by simp only; omega)

end

/-- The shift count of `range->bits` for the ends of a node with a bitmap is a fixnum. -/
def Node.shiftable (a : Node) : Bool :=
  a.bits.isNone || decide (1 + (a.stop - a.start) < 2 ^ 62)

/-- `iset-optimize-node!`, once the node has been squashed. -/
def cutNode (span : ℤ) (a : Node) (left right : Iset) : Iset :=
  match a.bits with
  | none => node a left right
  | some bits =>
    match sparse bits bits.size span 0 [] with
    | [] => node a left right
    | range :: ranges =>
      nodeReplace a left right
        (splitLoop a.start a.stop bits (range :: ranges).reverse [] 0)

/-- `iset-optimize-node!`.  The exception is that of `iset-squash-bits!`; the pieces of the node have
narrower ranges. -/
def optimizeNode (span : ℤ) (a : Node) (left right : Iset) : Option Iset :=
  if a.shiftable then some (cutNode span (squashBits a) left right) else none

/-! ## Optimizing a set -/

/-- `%iset-prune!` -/
def pruneNodes : Iset → Iset
  | absent => absent
  | node a left right =>
    let left := pruneNodes left
    let right := pruneNodes right
    if a.bits = some 0 ∧ left = absent ∧ right = absent then absent else node a left right

/-- A tree without empty nodes. -/
def isetPrune (is : Iset) : Iset :=
  match pruneNodes is with
  | absent => makeEmpty
  | is => is

/-- Every node is optimized, after the nodes to its left and before those to its right. -/
def optimizeNodes (span : ℤ) : Iset → Option Iset
  | absent => some absent
  | node a left right => do
    let left ← optimizeNodes span left
    match ← optimizeNode span a left right with
    | absent => some absent
    | node a left _ =>
      let right ← optimizeNodes span right
      some (node a left right)

/-- `iset-optimize`, or `none` for the exception; without a span it is 320. -/
def isetOptimize (span : ℤ) (is : Iset) : Option Iset :=
  (optimizeNodes span (isetPrune is)).map isetPrune

variable {a : Node} {left right is : Iset} {x : ℤ} {S : Finset ℤ}

/-! ## Balancing keeps the nodes -/

theorem reduceNodes_nodes (l : List Node) : (reduceNodes l).nodes = l := by
  induction l using reduceNodes.induct with
  | case1 => rw [reduceNodes]; rfl
  | case2 a => rw [reduceNodes]; rfl
  | case3 a b ls whole mid hmid ih_front ih_behind =>
    rw [reduceNodes, nodes, ih_front, ih_behind, getElem_cons_drop, take_append_drop]

theorem isetBalance_nodes (is : Iset) : (isetBalance is).nodes = is.nodes := by
  have hfold : ∀ (is : Iset) (acc : List Node),
      isetFoldNode
        (fun is nodes =>
          match is with
          | absent => nodes
          | node a _ _ => a :: nodes)
        acc is = is.nodes.reverse ++ acc := by
    intro is
    induction is with
    | absent => exact fun acc => rfl
    | node a left right ihleft ihright =>
      intro acc
      rw [isetFoldNode, ihleft, ihright, nodes]
      simp
  unfold isetBalance
  rw [reduceNodes_nodes, hfold, append_nil, reverse_reverse]

/-! ## Trimming -/

theorem testBit_shift_one (bits i : ℕ) : (shift bits (-1)).testBit i = bits.testBit (i + 1) := by
  rw [testBit_shift]
  have hindex : ((i : ℤ) - -1).toNat = i + 1 := by omega
  rw [hindex, decide_eq_true (by omega), Bool.true_and]

theorem trimLoop_spec (stop : ℤ) (bits : ℕ) (start : ℤ) (hok : (⟨start, stop, some bits⟩ : Node).Ok) :
    (trimLoop stop bits start).Ok ∧ start ≤ (trimLoop stop bits start).start ∧
      (trimLoop stop bits start).stop ≤ stop ∧
      ∀ x, (trimLoop stop bits start).Mem x ↔ (⟨start, stop, some bits⟩ : Node).Mem x := by
  induction bits, start using trimLoop.induct stop with
  | case1 start =>
    rw [trimLoop, if_pos rfl]
    exact ⟨hok, le_refl _, le_refl _, fun x => Iff.rfl⟩
  | case2 bits start hzero hge =>
    have hle : start ≤ stop := hok.le
    have hwithin : ∀ i : ℕ, bits.testBit i = true → start + i ≤ stop := hok.bits bits rfl
    have hhigh : ∀ i : ℕ, 0 < i → bits.testBit i = false := by
      intro i hi
      by_contra hset
      have hbound := hwithin i (by simpa using hset)
      omega
    have hrest : shift bits (-1) = 0 := by
      refine Nat.eq_of_testBit_eq fun i => ?_
      rw [testBit_shift_one, hhigh (i + 1) (Nat.succ_pos i), Nat.zero_testBit]
    have hlow : bits.testBit 0 = true := by
      by_contra hclear
      refine hzero (Nat.eq_of_testBit_eq fun i => ?_)
      cases i with
      | zero => simpa using hclear
      | succ i => rw [hhigh (i + 1) (Nat.succ_pos i), Nat.zero_testBit]
    rw [trimLoop, if_neg hzero, if_pos hge, hrest, if_pos (by decide)]
    refine ⟨⟨le_refl _, fun bits h => by cases h⟩, le_refl _, hle, fun x => ?_⟩
    rw [Node.mem_of_range, Node.mem_of_bits]
    constructor
    · rintro ⟨hlow', hhigh'⟩
      have hx : (x - start).toNat = 0 := by omega
      exact ⟨hlow', by omega, by rw [hx]; exact hlow⟩
    · rintro ⟨hlow', hhigh', -⟩
      exact ⟨hlow', by omega⟩
  | case3 bits start hzero hlt heven ih =>
    have hle : start ≤ stop := hok.le
    have hok' : (⟨start + 1, stop, some (shift bits (-1))⟩ : Node).Ok := by
      refine ⟨by show start + 1 ≤ stop; omega, ?_⟩
      rintro _ ⟨⟩ i hi
      rw [testBit_shift_one] at hi
      have hbound : start + ((i + 1 : ℕ) : ℤ) ≤ stop := hok.bits bits rfl _ hi
      show start + 1 + (i : ℤ) ≤ stop
      push_cast at hbound
      omega
    obtain ⟨htrimmed, hstart, hstop, hmem⟩ := ih hok'
    rw [trimLoop, if_neg hzero, if_neg hlt, if_pos heven]
    refine ⟨htrimmed, by omega, hstop, fun x => (hmem x).trans ?_⟩
    rw [Node.mem_of_bits, Node.mem_of_bits, testBit_shift_one]
    constructor
    · rintro ⟨hlow, hhigh, hbit⟩
      have hindex : (x - (start + 1)).toNat + 1 = (x - start).toNat := by omega
      exact ⟨by omega, hhigh, by rwa [hindex] at hbit⟩
    · rintro ⟨hlow, hhigh, hbit⟩
      have hpos : x ≠ start := by
        rintro rfl
        rw [sub_self, Int.toNat_zero, Nat.testBit_zero, decide_eq_true_eq] at hbit
        omega
      have hindex : (x - (start + 1)).toNat + 1 = (x - start).toNat := by omega
      exact ⟨by omega, hhigh, by rwa [hindex]⟩
  | case4 bits start hzero hlt hodd =>
    rw [trimLoop, if_neg hzero, if_neg hlt, if_neg hodd]
    exact ⟨hok, le_refl _, le_refl _, fun x => Iff.rfl⟩

variable {start stop : ℤ} {bits : ℕ}

theorem trimAndSquashBits_spec (hok : (⟨start, stop, some bits⟩ : Node).Ok) :
    (trimAndSquashBits ⟨start, stop, some bits⟩).Ok ∧
      start ≤ (trimAndSquashBits ⟨start, stop, some bits⟩).start ∧
      (trimAndSquashBits ⟨start, stop, some bits⟩).stop ≤ stop ∧
      ∀ x, (trimAndSquashBits ⟨start, stop, some bits⟩).Mem x ↔
        (⟨start, stop, some bits⟩ : Node).Mem x := by
  obtain ⟨htrimmed, hstart, hstop, hmem⟩ := trimLoop_spec stop bits start hok
  obtain ⟨hsquashed, hstart', hstop', hmem'⟩ := squashBits_spec htrimmed
  exact ⟨hsquashed, hstart'.symm ▸ hstart, hstop'.symm ▸ hstop,
    fun x => (hmem' x).trans (hmem x)⟩

/-! ## Pieces of a node -/

/-- The pieces lie in order within the range of the node and hold its integers. -/
structure Refines (a : Node) (pieces : List Node) : Prop where
  inOrder : InOrder pieces
  within : ∀ p ∈ pieces, a.start ≤ p.start ∧ p.stop ≤ a.stop
  mem : ∀ x, (∃ p ∈ pieces, p.Mem x) ↔ a.Mem x

theorem Refines.single {a b : Node} (hok : b.Ok) (hstart : b.start = a.start)
    (hstop : b.stop = a.stop) (hmem : ∀ x, b.Mem x ↔ a.Mem x) : Refines a [b] where
  inOrder := InOrder.cons_iff.mpr ⟨hok, fun _ h => (not_mem_nil h).elim, .nil⟩
  within p hp := by
    rw [mem_singleton.mp hp]
    exact ⟨hstart.symm.le, hstop.le⟩
  mem x := by simp [hmem]

theorem Refines.flatten {l : List Node} {pss : List (List Node)} (horder : InOrder l)
    (hall : List.Forall₂ Refines l pss) :
    InOrder pss.flatten ∧
      (∀ p ∈ pss.flatten, ∃ a ∈ l, a.start ≤ p.start ∧ p.stop ≤ a.stop) ∧
      ∀ x, (∃ p ∈ pss.flatten, p.Mem x) ↔ ∃ a ∈ l, a.Mem x := by
  induction hall with
  | nil => exact ⟨.nil, by simp, by simp⟩
  | @cons a ps l pss ha _ ih =>
    obtain ⟨hok, hbefore, hrest⟩ := InOrder.cons_iff.mp horder
    obtain ⟨hflat, hwithin, hmem⟩ := ih hrest
    rw [flatten_cons]
    refine ⟨InOrder.append_iff.mpr ⟨ha.inOrder, hflat, fun p hp q hq => ?_⟩,
      fun p hp => ?_, fun x => ?_⟩
    · obtain ⟨b, hb, hstart, -⟩ := hwithin q hq
      have hlt := hbefore b hb
      have hle := (ha.within p hp).2
      omega
    · rcases mem_append.mp hp with hp | hp
      · exact ⟨a, mem_cons_self, ha.within p hp⟩
      · obtain ⟨b, hb, hrange⟩ := hwithin p hp
        exact ⟨b, mem_cons_of_mem a hb, hrange⟩
    · simp only [mem_append, or_and_right, exists_or, mem_cons, exists_eq_left]
      rw [ha.mem, hmem]

theorem Represents.of_refines {is' : Iset} (h : Represents is S) {pss : List (List Node)}
    (hall : List.Forall₂ Refines is.nodes pss) (hnodes : is'.nodes = pss.flatten) :
    Represents is' S := by
  obtain ⟨horder, -, hmem⟩ := Refines.flatten (ordered_iff_inOrder.mp h.ordered) hall
  refine ⟨ordered_iff_inOrder.mpr (hnodes ▸ horder), fun x => ?_⟩
  rw [mem_iff_nodes, hnodes, hmem, ← mem_iff_nodes, h.mem]

/-! ## The runs -/

/-- The bits from `r.1` up to `r.2` are set, and the next one is not. -/
structure RunOk (bits : ℕ) (r : ℕ × ℕ) : Prop where
  lt : r.1 < r.2
  set : ∀ i, r.1 ≤ i → i < r.2 → bits.testBit i = true
  stops : bits.testBit r.2 = false

/-- Runs that were found below `bound`, the last one first. -/
structure Runs (bits bound : ℕ) (ranges : List (ℕ × ℕ)) : Prop where
  ok : ∀ r ∈ ranges, RunOk bits r
  below : ∀ r ∈ ranges, r.2 ≤ bound
  apart : ranges.Pairwise fun later earlier => earlier.2 ≤ later.1

theorem Runs.mono {bound bound' : ℕ} {ranges : List (ℕ × ℕ)} (h : Runs bits bound ranges)
    (hle : bound ≤ bound') : Runs bits bound' ranges :=
  ⟨h.ok, fun r hr => (h.below r hr).trans hle, h.apart⟩

theorem Runs.cons {since i : ℕ} {ranges : List (ℕ × ℕ)} (h : Runs bits since ranges)
    (hrun : RunOk bits (since, i)) : Runs bits i ((since, i) :: ranges) where
  ok r hr := by
    rcases mem_cons.mp hr with rfl | hr
    · exact hrun
    · exact h.ok r hr
  below r hr := by
    rcases mem_cons.mp hr with rfl | hr
    · exact le_refl _
    · exact (h.below r hr).trans hrun.lt.le
  apart := pairwise_cons.mpr ⟨h.below, h.apart⟩

mutual

theorem full_spec (bits : ℕ) (span : ℤ) (i since : ℕ) (ranges : List (ℕ × ℕ)) (hlt : since < i)
    (hset : ∀ j, since ≤ j → j < i → bits.testBit j = true) (hruns : Runs bits since ranges) :
    ∃ bound, Runs bits bound (full bits bits.size span i since ranges) := by
  rw [full]
  split
  · rename_i hstop
    have hclear : bits.testBit i = false := by
      rcases hstop with hlen | hclear
      · exact Nat.testBit_eq_false_of_lt
          ((Nat.lt_size_self bits).trans_le (Nat.pow_le_pow_right (by decide) hlen))
      · simpa [isBitSet] using hclear
    split
    · exact sparse_spec bits span (i + 1) _
        ((hruns.cons ⟨hlt, hset, hclear⟩).mono (Nat.le_succ i))
    · exact sparse_spec bits span (i + 1) _ (hruns.mono (by omega))
  · rename_i hmore
    refine full_spec bits span (i + 1) since ranges (by omega) (fun j hlow hhigh => ?_) hruns
    rcases Nat.lt_succ_iff_lt_or_eq.mp hhigh with hhigh | rfl
    · exact hset j hlow hhigh
    · have hbit := (not_or.mp hmore).2
      simpa [isBitSet] using hbit
termination_by (bits.size + 1 - i, 1)
decreasing_by
  · exact Prod.lex_def.mpr (by simp only; omega)
  · exact Prod.lex_def.mpr (by simp only; omega)
  · exact Prod.lex_def.mpr (by simp only; omega)

theorem sparse_spec (bits : ℕ) (span : ℤ) (i : ℕ) (ranges : List (ℕ × ℕ))
    (hruns : Runs bits i ranges) :
    ∃ bound, Runs bits bound (sparse bits bits.size span i ranges) := by
  rw [sparse]
  split
  · exact ⟨i, hruns⟩
  split
  · rename_i hbit
    refine full_spec bits span (i + 1) i ranges (Nat.lt_succ_self i) (fun j hlow hhigh => ?_)
      hruns
    obtain rfl : j = i := by omega
    simpa [isBitSet] using hbit
  · exact sparse_spec bits span (i + 1) ranges (hruns.mono (Nat.le_succ i))
termination_by (bits.size + 1 - i, 0)
decreasing_by
  · exact Prod.lex_def.mpr (by simp only; omega)
  · exact Prod.lex_def.mpr (by simp only; omega)

end

/-! ## Cutting a bitmap -/

/-- The pieces of a node below `start + last`, from right to left. -/
structure Collected (a : Node) (last : ℕ) (nodes : List Node) : Prop where
  inOrder : InOrder nodes.reverse
  within : ∀ p ∈ nodes, a.start ≤ p.start ∧ p.stop < a.start + last
  mem : ∀ x, (∃ p ∈ nodes, p.Mem x) ↔ a.Mem x ∧ x < a.start + last

theorem Collected.nil (a : Node) : Collected a 0 [] where
  inOrder := .nil
  within p hp := (not_mem_nil hp).elim
  mem x := by
    constructor
    · rintro ⟨p, hp, -⟩
      exact (not_mem_nil hp).elim
    · rintro ⟨hmem, hlt⟩
      have hlow := hmem.1
      simp only [Nat.cast_zero, add_zero] at hlt
      omega

variable {last : ℕ} {nodes : List Node}

theorem Collected.push {last' : ℕ} {p : Node} (h : Collected a last nodes) (hok : p.Ok)
    (hstart : a.start + last ≤ p.start) (hstop : p.stop < a.start + last') (hle : last ≤ last')
    (hmem : ∀ x, p.Mem x ↔ a.Mem x ∧ a.start + last ≤ x ∧ x < a.start + last') :
    Collected a last' (p :: nodes) where
  inOrder := by
    rw [reverse_cons, InOrder.append_iff, InOrder.cons_iff]
    refine ⟨h.inOrder, ⟨hok, fun _ h => (not_mem_nil h).elim, .nil⟩, fun b hb c hc => ?_⟩
    rw [mem_singleton.mp hc]
    have hlt := (h.within b (mem_reverse.mp hb)).2
    omega
  within q hq := by
    rcases mem_cons.mp hq with rfl | hq
    · exact ⟨by omega, hstop⟩
    · have hrange := h.within q hq
      omega
  mem x := by
    have hcons : (∃ q ∈ p :: nodes, q.Mem x) ↔ p.Mem x ∨ ∃ q ∈ nodes, q.Mem x := by
      simp only [mem_cons, or_and_right, exists_or, exists_eq_left]
    rw [hcons, h.mem, hmem]
    constructor
    · rintro (⟨ha, -, hlt⟩ | ⟨ha, hlt⟩)
      · exact ⟨ha, hlt⟩
      · exact ⟨ha, by omega⟩
    · rintro ⟨ha, hlt⟩
      by_cases hlow : x < a.start + last
      · exact .inr ⟨ha, hlow⟩
      · exact .inl ⟨ha, not_lt.mp hlow, hlt⟩

theorem testBit_shift_neg (bits last i : ℕ) :
    (shift bits (-(last : ℤ))).testBit i = bits.testBit (last + i) := by
  rw [testBit_shift]
  have hindex : ((i : ℤ) - -(last : ℤ)).toNat = last + i := by omega
  rw [hindex, decide_eq_true (by omega), Bool.true_and]

variable {lo : ℕ}

theorem testBit_bitField (hlt : last < lo) (i : ℕ) :
    (bitField bits last lo).testBit i = (bits.testBit (last + i) && decide (last + i < lo)) := by
  have hmask : shift 1 ((lo : ℤ) - last) - 1 = 2 ^ (lo - last) - 1 := by
    rw [shift, if_pos (by omega), Nat.one_shiftLeft]
    congr 2
    omega
  rw [bitField, Nat.testBit_and, testBit_shift_neg, hmask, Nat.testBit_two_pow_sub_one]
  congr 1
  exact decide_eq_decide.mpr (by omega)

variable (hok : (⟨start, stop, some bits⟩ : Node).Ok)
include hok

theorem part_spec {bound : ℤ} {part : ℕ} (hle : start + last ≤ bound)
    (hpart : ∀ i, part.testBit i = (bits.testBit (last + i) && decide (start + last + i ≤ bound))) :
    (⟨start + last, bound, some part⟩ : Node).Ok ∧
      ∀ x, (⟨start + last, bound, some part⟩ : Node).Mem x ↔
        (⟨start, stop, some bits⟩ : Node).Mem x ∧ start + last ≤ x ∧ x ≤ bound := by
  refine ⟨⟨hle, ?_⟩, fun x => ?_⟩
  · rintro _ ⟨⟩ i hi
    rw [hpart, Bool.and_eq_true, decide_eq_true_eq] at hi
    exact hi.2
  · rw [Node.mem_of_bits, Node.mem_of_bits, hpart]
    constructor
    · rintro ⟨hlow, hhigh, hbit⟩
      rw [Bool.and_eq_true] at hbit
      have hindex : last + (x - (start + last)).toNat = (x - start).toNat := by omega
      have hbit := hbit.1
      rw [hindex] at hbit
      have hstop : start + ((x - start).toNat : ℤ) ≤ stop := hok.bits bits rfl _ hbit
      exact ⟨⟨by omega, by omega, hbit⟩, hlow, hhigh⟩
    · rintro ⟨⟨-, -, hbit⟩, hlow, hhigh⟩
      have hindex : last + (x - (start + last)).toNat = (x - start).toNat := by omega
      refine ⟨hlow, hhigh, ?_⟩
      rw [hindex, hbit, Bool.true_and, decide_eq_true_eq]
      omega

theorem Collected.gap (h : Collected ⟨start, stop, some bits⟩ last nodes) (hle : last ≤ lo) :
    Collected ⟨start, stop, some bits⟩ lo
      (if last < lo then
        trimAndSquashBits ⟨start + last, start + lo - 1, some (bitField bits last lo)⟩ :: nodes
      else nodes) := by
  split
  · rename_i hlt
    have hfield : ∀ i, (bitField bits last lo).testBit i =
        (bits.testBit (last + i) && decide (start + last + i ≤ start + lo - 1)) := fun i => by
      rw [testBit_bitField hlt]
      congr 1
      exact decide_eq_decide.mpr (by omega)
    obtain ⟨hpart, hmem⟩ := part_spec hok (by omega) hfield
    obtain ⟨htrimmed, hstart, hstop, hmem'⟩ := trimAndSquashBits_spec hpart
    refine h.push htrimmed hstart (by show _ < start + (lo : ℤ); omega) hle fun x => ?_
    rw [hmem', hmem]
    show _ ∧ start + (last : ℤ) ≤ x ∧ _ ↔ _ ∧ start + (last : ℤ) ≤ x ∧ x < start + (lo : ℤ)
    rw [Int.le_sub_one_iff]
  · rename_i hge
    obtain rfl : last = lo := by omega
    exact h

theorem Collected.run {hi : ℕ} (h : Collected ⟨start, stop, some bits⟩ lo nodes) (hrun : RunOk bits (lo, hi)) :
    Collected ⟨start, stop, some bits⟩ hi (⟨start + lo, start + hi - 1, none⟩ :: nodes) := by
  have hlt : lo < hi := hrun.lt
  refine h.push ⟨by show start + (lo : ℤ) ≤ start + hi - 1; omega, fun bits h => by cases h⟩
    (le_refl _) (by show start + (hi : ℤ) - 1 < start + hi; omega) hlt.le fun x => ?_
  show _ ↔ _ ∧ start + (lo : ℤ) ≤ x ∧ x < start + (hi : ℤ)
  rw [Node.mem_of_range, Node.mem_of_bits]
  constructor
  · rintro ⟨hlow, hhigh⟩
    have hbit := hrun.set (x - start).toNat (by simp only; omega) (by simp only; omega)
    have hstop : start + ((x - start).toNat : ℤ) ≤ stop := hok.bits bits rfl _ hbit
    exact ⟨⟨by omega, by omega, hbit⟩, hlow, by omega⟩
  · rintro ⟨-, hlow, hhigh⟩
    exact ⟨hlow, by omega⟩

/-- The loop collects the pieces of a bitmap, in order. -/
theorem splitLoop_spec {ls : List (ℕ × ℕ)} (h : Collected ⟨start, stop, some bits⟩ last nodes) (hbound : start + last ≤ stop + 1)
    (hruns : ∀ r ∈ ls, RunOk bits r) (hlast : ∀ r ∈ ls, last ≤ r.1)
    (hapart : ls.Pairwise fun earlier later => earlier.2 ≤ later.1)
    (hend : ls ≠ [] ∨ bits.testBit last = false) :
    Refines ⟨start, stop, some bits⟩ (splitLoop start stop bits ls nodes last).reverse := by
  induction ls generalizing last nodes with
  | nil =>
    have hclear := hend.resolve_left (not_not.mpr rfl)
    have hle : start ≤ stop := hok.le
    rw [splitLoop]
    split
    · rename_i hlt
      have hshift : ∀ i, (shift bits (-last)).testBit i =
          (bits.testBit (last + i) && decide (start + last + i ≤ stop)) := fun i => by
        rw [testBit_shift_neg]
        cases hbit : bits.testBit (last + i) with
        | false => rfl
        | true =>
          have hbound : start + ((last + i : ℕ) : ℤ) ≤ stop := hok.bits bits rfl _ hbit
          rw [Bool.true_and, eq_comm, decide_eq_true_eq]
          push_cast at hbound
          omega
      obtain ⟨hpart, hmem⟩ := part_spec hok hlt.le hshift
      obtain ⟨htrimmed, hstart, hstop, hmem'⟩ := trimAndSquashBits_spec hpart
      have hall : Collected ⟨start, stop, some bits⟩ (stop + 1 - start).toNat _ :=
        h.push htrimmed hstart
        (by show _ < start + ((stop + 1 - start).toNat : ℤ); omega) (by omega) fun x => by
          rw [hmem', hmem]
          show _ ∧ start + (last : ℤ) ≤ x ∧ _ ↔
            _ ∧ start + (last : ℤ) ≤ x ∧ x < start + ((stop + 1 - start).toNat : ℤ)
          rw [show start + ((stop + 1 - start).toNat : ℤ) = stop + 1 by omega, Int.lt_add_one_iff]
      refine ⟨hall.inOrder, fun p hp => ?_, fun x => ?_⟩
      · have hrange := hall.within p (mem_reverse.mp hp)
        simp only at hrange ⊢
        omega
      · simp only [mem_reverse]
        rw [hall.mem]
        refine ⟨fun hx => hx.1, fun hx => ⟨hx, ?_⟩⟩
        have hhigh : x ≤ stop := hx.2.1
        show x < start + ((stop + 1 - start).toNat : ℤ)
        omega
    · -- nothing lies behind the last run
      rename_i hge
      refine ⟨h.inOrder, fun p hp => ?_, fun x => ?_⟩
      · obtain ⟨hlow, hhigh⟩ := h.within p (mem_reverse.mp hp)
        simp only at hhigh
        exact ⟨hlow, by show p.stop ≤ stop; omega⟩
      · simp only [mem_reverse]
        rw [h.mem]
        refine ⟨fun hx => hx.1, fun hx => ⟨hx, ?_⟩⟩
        obtain ⟨hlow, hhigh, hbit⟩ := Node.mem_of_bits.mp hx
        show x < start + (last : ℤ)
        by_contra hnot
        have hindex : (x - start).toNat = last := by omega
        rw [hindex, hclear] at hbit
        cases hbit
  | cons r ls ih =>
    obtain ⟨lo, hi⟩ := r
    have hrun := hruns (lo, hi) mem_cons_self
    obtain ⟨hbefore, hapart⟩ := pairwise_cons.mp hapart
    have hlt : lo < hi := hrun.lt
    have hstop : start + ((hi - 1 : ℕ) : ℤ) ≤ stop :=
      hok.bits bits rfl _ (hrun.set (hi - 1) (by simp only; omega) (by simp only; omega))
    rw [splitLoop]
    refine ih ((h.gap hok (hlast _ mem_cons_self)).run hok hrun) (by omega)
      (fun r hr => hruns r (mem_cons_of_mem _ hr)) (fun r hr => hbefore r hr) hapart
      (.inr hrun.stops)

omit hok

/-! ## Putting the pieces in place -/

theorem insertLefts_nodes {ls : List Node} {a : Node} {left right : Iset}
    (h : ∀ l ∈ left.nodes, ∀ new ∈ ls, l.start ≤ new.stop) :
    ∃ left', insertLefts ls a left right = node a left' right ∧
      left'.nodes = left.nodes ++ ls.reverse := by
  induction ls generalizing a right with
  | nil => exact ⟨left, rfl, by simp⟩
  | cons new ls ih =>
    have hsubtrees : subtreesOfNew left new = (left, absent) := by
      cases left with
      | absent => rfl
      | node l ll lr =>
        have hle := h l (by simp [nodes]) new mem_cons_self
        rw [subtreesOfNew, if_neg (not_lt.mpr hle)]
    obtain ⟨left', heq, hnodes⟩ := @ih new absent
      fun l hl b hb => h l hl b (mem_cons_of_mem _ hb)
    refine ⟨node new left' absent, ?_, ?_⟩
    · rw [insertLefts, hsubtrees, heq]
    · simp [nodes, hnodes]

theorem nodeReplace_nodes {new : Node} {ls : List Node} {a : Node} {left right : Iset}
    (h : ∀ l ∈ left.nodes, ∀ new ∈ ls, l.start ≤ new.stop) :
    ∃ a' left', nodeReplace a left right (new :: ls) = node a' left' right ∧
      left'.nodes ++ [a'] = left.nodes ++ (new :: ls).reverse := by
  obtain ⟨left', heq, hnodes⟩ := @insertLefts_nodes ls new left right h
  exact ⟨new, left', heq, by simp [hnodes]⟩

theorem cutNode_spec (span : ℤ) {a : Node} {left right : Iset} (hok : a.Ok)
    (hleft : ∀ l ∈ left.nodes, l.start < a.start) :
    ∃ a' left' pieces, cutNode span (squashBits a) left right = node a' left' right ∧
      left'.nodes ++ [a'] = left.nodes ++ pieces ∧ Refines a pieces := by
  obtain ⟨hsquashed, hstart, hstop, hmem⟩ := squashBits_spec hok
  have hsingle : Refines a [squashBits a] := .single hsquashed hstart hstop hmem
  have hsame : ∃ a' left' pieces, node (squashBits a) left right = node a' left' right ∧
      left'.nodes ++ [a'] = left.nodes ++ pieces ∧ Refines a pieces :=
    ⟨squashBits a, left, [squashBits a], rfl, rfl, hsingle⟩
  unfold cutNode
  cases hbits : (squashBits a).bits with
  | none => simpa only [hbits] using hsame
  | some bits =>
    cases hranges : sparse bits bits.size span 0 [] with
    | nil => simpa only [hbits, hranges] using hsame
    | cons range ranges =>
      obtain ⟨bound, hruns⟩ := sparse_spec bits span 0 []
        ⟨fun _ h => (not_mem_nil h).elim, fun _ h => (not_mem_nil h).elim, .nil⟩
      rw [hranges] at hruns
      have heq : squashBits a = ⟨a.start, a.stop, some bits⟩ := by
        rw [← hstart, ← hstop, ← hbits]
      rw [heq] at hsquashed hmem
      have hpieces := splitLoop_spec hsquashed (.nil _) (by have h := hok.le; simp; omega)
        (fun r hr => hruns.ok r (mem_reverse.mp hr)) (fun r _ => Nat.zero_le _)
        (pairwise_reverse.mpr hruns.apart) (.inl (by simp))
      have hrefines : Refines a (splitLoop a.start a.stop bits (range :: ranges).reverse [] 0).reverse :=
        ⟨hpieces.inOrder, hpieces.within, fun x => (hpieces.mem x).trans (hmem x)⟩
      simp only [hranges, hstart, hstop]
      cases hsplit : splitLoop a.start a.stop bits (range :: ranges).reverse [] 0 with
      | nil => exact hsame
      | cons new ls =>
        rw [hsplit] at hrefines
        obtain ⟨a', left', hreplace, hnodes⟩ := @nodeReplace_nodes new ls
          (squashBits a) left right fun l hl b hb => by
            have hmem : b ∈ (new :: ls).reverse :=
              mem_reverse.mpr (mem_cons_of_mem _ hb)
            have hrange := hrefines.within b hmem
            have hle := (hrefines.inOrder.ok b hmem).le
            have hlt := hleft l hl
            omega
        exact ⟨a', left', _, hreplace, hnodes, hrefines⟩

/-- Every bitmap of the set has a range that `range->bits` can take. -/
def Iset.Shiftable (is : Iset) : Prop := ∀ a ∈ is.nodes, a.shiftable = true

instance (is : Iset) : Decidable is.Shiftable := inferInstanceAs (Decidable (∀ a ∈ is.nodes, _))

theorem shiftable_node :
    (node a left right).Shiftable ↔ left.Shiftable ∧ a.shiftable = true ∧ right.Shiftable := by
  simp only [Shiftable, nodes, mem_append, mem_cons, or_imp, forall_and, forall_eq]

/-- The nodes are optimized one after the other, up to the first one that cannot be shifted. -/
theorem optimizeNodes_spec (span : ℤ) {is : Iset} (hordered : is.Ordered) :
    (is.Shiftable → ∃ is' pss, optimizeNodes span is = some is' ∧
      List.Forall₂ Refines is.nodes pss ∧ is'.nodes = pss.flatten) ∧
    (¬ is.Shiftable → optimizeNodes span is = none) := by
  induction is with
  | absent =>
    exact ⟨fun _ => ⟨absent, [], rfl, .nil, rfl⟩, fun hnot => absurd (fun _ => nofun) hnot⟩
  | node a left right ihleft ihright =>
    obtain ⟨hok, hbefore, -, hleftOrder, hrightOrder⟩ := hordered
    rw [shiftable_node, optimizeNodes]
    by_cases hshiftLeft : left.Shiftable
    case neg =>
      rw [(ihleft hleftOrder).2 hshiftLeft]
      exact ⟨fun h => absurd h.1 hshiftLeft, fun _ => rfl⟩
    obtain ⟨left', pssLeft, hrunLeft, hleft, hleftNodes⟩ := (ihleft hleftOrder).1 hshiftLeft
    simp only [hrunLeft, Option.bind_eq_bind, Option.bind_some, optimizeNode]
    by_cases hshift : a.shiftable = true
    case neg =>
      rw [if_neg hshift]
      exact ⟨fun h => absurd h.2.1 hshift, fun _ => rfl⟩
    obtain ⟨hflat, hwithin, -⟩ := Refines.flatten (ordered_iff_inOrder.mp hleftOrder) hleft
    obtain ⟨a', left'', pieces, heq, hnodes, hrefines⟩ := @cutNode_spec span a left' right hok
      fun l hl => by
        rw [hleftNodes] at hl
        obtain ⟨b, hb, -, hstop⟩ := hwithin l hl
        have hlt := endsBefore_iff_nodes.mp hbefore b hb
        have hle := (hflat.ok l hl).le
        omega
    rw [if_pos hshift, heq, Option.bind_some]
    simp only
    by_cases hshiftRight : right.Shiftable
    case neg =>
      rw [(ihright hrightOrder).2 hshiftRight]
      exact ⟨fun h => absurd h.2.2 hshiftRight, fun _ => rfl⟩
    obtain ⟨right', pssRight, hrunRight, hright, hrightNodes⟩ := (ihright hrightOrder).1 hshiftRight
    rw [hrunRight, Option.bind_some]
    refine ⟨fun _ => ⟨_, pssLeft ++ pieces :: pssRight, rfl, ?_, ?_⟩, fun hnot =>
      absurd ⟨hshiftLeft, hshift, hshiftRight⟩ hnot⟩
    · rw [nodes]
      exact rel_append hleft (.cons hrefines hright)
    · show left''.nodes ++ a' :: right'.nodes = _
      rw [append_cons, hnodes, hleftNodes, hrightNodes]
      simp

/-! ## Removing empty nodes -/

theorem InOrder.sublist {l l' : List Node} (h : InOrder l) (hsub : l'.Sublist l) : InOrder l' :=
  ⟨fun a ha => h.ok a (hsub.subset ha), h.pairwise.sublist hsub⟩

/-- Only empty nodes go. -/
theorem pruneNodes_spec (is : Iset) :
    (pruneNodes is).nodes.Sublist is.nodes ∧ ∀ x, (pruneNodes is).Mem x ↔ is.Mem x := by
  induction is with
  | absent => exact ⟨List.Sublist.refl _, fun x => Iff.rfl⟩
  | node a left right ihleft ihright =>
    obtain ⟨hsubLeft, hmemLeft⟩ := ihleft
    obtain ⟨hsubRight, hmemRight⟩ := ihright
    rw [pruneNodes]
    split
    · rename_i hempty
      obtain ⟨hbits, hleft, hright⟩ := hempty
      refine ⟨nil_sublist _, fun x => ?_⟩
      show False ↔ a.Mem x ∨ left.Mem x ∨ right.Mem x
      rw [← hmemLeft, ← hmemRight, hleft, hright]
      refine iff_of_false id ?_
      rintro (hmem | hmem | hmem)
      · have hbit := hmem.2.2 0 hbits
        rw [Nat.zero_testBit] at hbit
        cases hbit
      · exact hmem
      · exact hmem
    · refine ⟨hsubLeft.append (hsubRight.cons_cons a), fun x => ?_⟩
      show a.Mem x ∨ _ ∨ _ ↔ a.Mem x ∨ left.Mem x ∨ right.Mem x
      rw [hmemLeft, hmemRight]

theorem Represents.prune (h : Represents is S) :
    Represents (isetPrune is) S ∧ isetPrune is ≠ absent := by
  obtain ⟨hsub, hmem⟩ := pruneNodes_spec is
  have hpruned : Represents (pruneNodes is) S :=
    ⟨ordered_iff_inOrder.mpr ((ordered_iff_inOrder.mp h.ordered).sublist hsub),
      fun x => (hmem x).trans (h.mem x)⟩
  unfold isetPrune
  cases hresult : pruneNodes is with
  | absent =>
    rw [hresult] at hpruned
    have hempty : S = ∅ := Finset.eq_empty_of_forall_notMem fun x hx => (hpruned.mem x).mpr hx
    rw [hempty]
    exact ⟨makeEmpty_represents, by simp [makeEmpty]⟩
  | node a left right =>
    rw [hresult] at hpruned
    exact ⟨hpruned, by simp⟩

/-! ## The results -/

/-- `iset-optimize` returns a set with the same integers, just when the bitmaps that pruning leaves can be
shifted. -/
theorem Represents.optimize_iff (h : Represents is S) (span : ℤ) :
    ((isetPrune is).Shiftable → ∃ is', isetOptimize span is = some is' ∧ Represents is' S ∧
      is' ≠ absent) ∧ (¬ (isetPrune is).Shiftable → isetOptimize span is = none) := by
  have hpruned := h.prune.1
  obtain ⟨hsome, hnone⟩ := optimizeNodes_spec span hpruned.ordered
  refine ⟨fun hshift => ?_, fun hshift => ?_⟩
  · obtain ⟨is', pss, hrun, hall, hnodes⟩ := hsome hshift
    refine ⟨isetPrune is', ?_, (hpruned.of_refines hall hnodes).prune⟩
    rw [isetOptimize, hrun, Option.map_some]
  · rw [isetOptimize, hnone hshift, Option.map_none]

theorem Represents.balance (h : Represents is S) (hset : is ≠ absent) :
    Represents (isetBalance is) S ∧ isetBalance is ≠ absent := by
  have hnodes := isetBalance_nodes is
  refine ⟨⟨?_, fun x => ?_⟩, fun habsent => ?_⟩
  · rw [ordered_iff_inOrder, hnodes, ← ordered_iff_inOrder]
    exact h.ordered
  · rw [mem_iff_nodes, hnodes, ← mem_iff_nodes, h.mem]
  · rw [habsent] at hnodes
    exact hset (nodes_eq_nil_iff.mp hnodes.symm)

end ChibiScheme.IntegerSet
