import ChibiScheme.Gc.Alloc

/-!
# Sweeping

`sexp_sweep` walks through the blocks of a chunk with the free list beside it.  What it
has behind it is swept already; each round moves one block over, two where it joins a
block that it frees with the free one behind.  The tiling it ends with is that of
`Tiling.sweep`.
-/

namespace ChibiScheme.Gc

open Tiling

/-- The sweep keeps marked objects. -/
def keepMarked (o : Obj) : Bool := o.marked

/-- The object without its mark. -/
def clearMark (o : Obj) : Obj := { o with marked := false }

variable {mem mem' : Mem} {d p q qsize size last : ℕ} {done rest : List (Block Obj)}

/-- The free block at the front of a tiling, which is joined with what is freed before
it: its size, and the blocks behind it. -/
def absorb : List (Block Obj) → ℕ × List (Block Obj)
  | .free s :: rest => (s, rest)
  | rest => (0, rest)

theorem sweep_absorb (done rest : List (Block Obj)) (size : ℕ) :
    sweep keepMarked clearMark (join done size) rest =
      sweep keepMarked clearMark (join done (size + (absorb rest).1)) (absorb rest).2 := by
  unfold absorb
  split
  · rw [sweep]
    congr 1
    unfold join
    cases done with
    | nil => rfl
    | cons b done =>
      cases b with
      | free s => simp [Nat.add_assoc]
      | used s o => rfl
  · rfl

theorem span_absorb (rest : List (Block Obj)) :
    (absorb rest).1 + span (absorb rest).2 = span rest := by
  unfold absorb
  split
  · simp [Block.size]
  · simp

theorem length_absorb_le (rest : List (Block Obj)) : (absorb rest).2.length ≤ rest.length := by
  unfold absorb
  split
  · simp
  · exact le_rfl

theorem absorb_of_used (hhead : ∀ s after, rest ≠ .free s :: after) : absorb rest = (0, rest) := by
  unfold absorb
  split
  · exact absurd rfl (hhead _ _)
  · rfl

variable {a s : ℕ}

theorem mergeable_free (ha : 0 < a) (hs : 0 < s) (hrep : Rep mem a (.free s :: rest) 0) :
    mergeable mem a a = some (some (s, firstFree (a + s) rest 0)) := by
  unfold mergeable
  rw [if_neg (by omega), hrep.1]
  simp [hs.ne']

theorem mergeable_used (hhead : ∀ s after, rest ≠ .free s :: after) (hpos : Positive rest)
    (hrep : Rep mem a rest 0) : mergeable mem (firstFree a rest 0) a = some none := by
  unfold mergeable
  cases rest with
  | nil => simp
  | cons b rest =>
    cases b with
    | free s => exact absurd rfl (hhead s rest)
    | used s o =>
      have hs : 0 < s := hpos.cons.1
      rw [firstFree_used]
      rcases firstFree_cases (a + s) 0 rest with ⟨-, hnone⟩ | ⟨mid, s', after, rfl, -, hfirst⟩
      · simp [hnone]
      have hcell := (rep_append.mp hrep.2).2.1
      rw [hfirst]
      split
      · rfl
      · rw [hcell]
        simp only
        rw [if_neg (by omega)]

theorem IsLast.adjacent_iff (hlast : IsLast d done.reverse q qsize) (hpos : Positive done.reverse)
    (hp : p = d + 32 + span done) :
    q + qsize = p ∧ q ≠ d ↔ ∃ before, done = .free qsize :: before ∧ q = d + 32 + span before := by
  have hrev : ∀ bs : List (Block Obj), span bs.reverse = span bs := fun bs => by simp [span]
  subst hp
  constructor
  · rintro ⟨hend, hne⟩
    rcases hlast with ⟨rfl, -, -⟩ | ⟨before, after, hdone, rfl, -⟩
    · exact absurd rfl hne
    have hspan := congrArg span hdone
    rw [hrev, span_append, span_cons, Block.size] at hspan
    have hafter : after = [] := by
      cases after with
      | nil => rfl
      | cons b after =>
        have hb : 0 < b.size := hpos b (by rw [hdone]; simp)
        simp only [span_cons] at hspan
        omega
    subst hafter
    refine ⟨before.reverse, ?_, by rw [hrev]⟩
    have := congrArg List.reverse hdone
    simpa using this
  · rintro ⟨before, rfl, hq⟩
    simp only [span_cons, Block.size]
    omega


theorem span_reverse (bs : List (Block Obj)) : span bs.reverse = span bs := by simp [span]

theorem join_of_used (hhead : ∀ s before, done ≠ .free s :: before) (size : ℕ) :
    join done size = .free size :: done := by
  unfold join
  split
  · exact absurd rfl (hhead _ _)
  · rfl

variable {before : List (Block Obj)}

private theorem linked_extended {extra last : ℕ}
    (hlinked : Linked mem d (Block.free qsize :: before).reverse last)
    (hpos : Positive (Block.free qsize :: before).reverse) (hq : q = d + 32 + span before)
    (hrest : Rep mem (q + (qsize + extra)) rest 0) (hposRest : Positive rest)
    (hcell : mem' q = .free (qsize + extra) (firstFree (q + (qsize + extra)) rest 0))
    (hbefore : ∀ x, d ≤ x → x < q → mem' x = mem x)
    (hafter : ∀ x, q + (qsize + extra) ≤ x → mem' x = mem x) :
    Linked mem' d ((join (.free qsize :: before) extra).reverse ++ rest) 0 := by
  have hspan : d + 32 + span (before.reverse ++ [Block.free (qsize + extra)]) =
      q + (qsize + extra) := by
    simp only [span_append, span_reverse, span_cons, Block.size, span_nil]
    omega
  rw [List.reverse_cons] at hlinked hpos
  rw [join, List.reverse_cons, linked_append, hspan]
  refine ⟨hlinked.extend hpos (by rw [span_reverse]; exact hq) hcell hbefore, ?_⟩
  exact hrest.congr hposRest fun x hlow _ => hafter x hlow

private theorem linked_inserted {freed : ℕ} (hlinked : Linked mem d done.reverse last)
    (hpos : Positive done.reverse) (hlast : IsLast d done.reverse q qsize)
    (hp : p = d + 32 + span done)
    (hhead : ∀ s before, done ≠ .free s :: before)
    (hrest : Rep mem (p + freed) rest 0) (hposRest : Positive rest) (hcell : mem' q = .free qsize p)
    (hnew : mem' p = .free freed (firstFree (p + freed) rest 0))
    (hbefore : ∀ x, d ≤ x → x < p → x ≠ q → mem' x = mem x)
    (hafter : ∀ x, p + freed ≤ x → mem' x = mem x) :
    Linked mem' d ((join done freed).reverse ++ rest) 0 := by
  have hspan : d + 32 + span done.reverse = p := by rw [span_reverse, hp]
  rw [join_of_used hhead, List.reverse_cons, List.append_assoc, List.singleton_append, linked_append,
    hspan]
  refine ⟨hlinked.relink hlast hpos hcell fun x hlow hhigh hne => ?_, hnew, ?_⟩
  · exact hbefore x hlow (by rw [← hspan]; exact hhigh) hne
  · exact hrest.congr hposRest fun x hlow _ => hafter x hlow

private theorem rep_absorb (hpos : Positive rest) (hrep : Rep mem a rest 0) :
    Rep mem (a + (absorb rest).1) (absorb rest).2 0 ∧ Positive (absorb rest).2 := by
  unfold absorb
  split
  · exact ⟨hrep.2, hpos.cons.2⟩
  · exact ⟨hrep, hpos⟩

/-- A change of memory that makes no object. -/
def NoNewObject (mem mem' : Mem) (p : ℕ) : Prop :=
  ∀ x o, mem' x = .object o → mem x = .object o ∧ x ≠ p

theorem noNewObject_set {x : ℕ} {cell : Cell} (hchange : NoNewObject mem mem' p)
    (hcell : ∀ o, cell ≠ .object o) : NoNewObject mem (mem'.set x cell) p := by
  intro y o hy
  by_cases hyx : y = x
  · subst hyx
    rw [Mem.set_self] at hy
    exact absurd hy (hcell o)
  · rw [Mem.set_of_ne hyx] at hy
    exact hchange y o hy

theorem noNewObject_set_self (mem : Mem) (p : ℕ) {cell : Cell} (hcell : ∀ o, cell ≠ .object o) :
    NoNewObject mem (mem.set p cell) p := by
  intro y o hy
  by_cases hyp : y = p
  · subst hyp
    rw [Mem.set_self] at hy
    exact absurd hy (hcell o)
  · rw [Mem.set_of_ne hyp] at hy
    exact ⟨hy, hyp⟩

variable {bs : List (Block Obj)}

/-- What `free p` does. -/
structure Freed (mem : Mem) (d p size : ℕ) (done rest : List (Block Obj)) (mem' : Mem) (freed : ℕ) :
    Prop where
  linked : Linked mem' d ((join done (size + (absorb rest).1)).reverse ++ (absorb rest).2) 0
  block : ∃ before, join done (size + (absorb rest).1) = .free freed :: before
  larger : ∀ s before, done = .free s :: before → s < freed
  frame : ∀ x, x < d ∨ p + size + span rest ≤ x → mem' x = mem x
  objects : NoNewObject mem mem' p

variable {o : Obj}

/-- A free block behind `p` is joined with it, and its head is no head any more. -/
private theorem freeBlock_merged {next : ℕ} (ha : 0 < p + size) (hpos : Positive rest)
    (hrest : Rep mem (p + size) rest 0) (hcell : mem q = .free qsize next) :
    ∃ mem₁ : Mem, (∀ x, x < p + size ∨ p + size + (absorb rest).1 ≤ x → mem₁ x = mem x) ∧
      (∀ x o, mem₁ x = .object o → mem x = .object o) ∧
      freeBlock d p size q (firstFree (p + size) rest 0) mem =
        if q + qsize = p ∧ q ≠ d then
          some ((mem₁.set p .blank).set q (.free (qsize + (size + (absorb rest).1))
              (firstFree (p + size + (absorb rest).1) (absorb rest).2 0)),
            qsize + (size + (absorb rest).1), p + size + (absorb rest).1)
        else
          some ((mem₁.set p (.free (size + (absorb rest).1)
              (firstFree (p + size + (absorb rest).1) (absorb rest).2 0))).set q (.free qsize p),
            size + (absorb rest).1, p + size + (absorb rest).1) := by
  unfold freeBlock
  rw [hcell]
  simp only [Option.bind_eq_bind]
  by_cases hhead : ∃ s after, rest = .free s :: after
  · obtain ⟨s, after, rfl⟩ := hhead
    have hs : 0 < s := hpos.cons.1
    refine ⟨mem.set (p + size) .blank, fun x hx => ?_, fun x o hx => ?_, ?_⟩
    · simp only [absorb] at hx
      rw [Mem.set_of_ne (by omega)]
    · by_cases hxr : x = p + size
      · subst hxr
        simp at hx
      · rwa [Mem.set_of_ne hxr] at hx
    · rw [firstFree_free, mergeable_free ha hs hrest, Option.bind_some]
      simp only [absorb, Nat.add_assoc]
  · have hused : ∀ s after, rest ≠ .free s :: after := fun s after heq => hhead ⟨s, after, heq⟩
    rw [mergeable_used hused hpos hrest, absorb_of_used hused]
    exact ⟨mem, fun _ _ => rfl, fun _ _ hx => hx, rfl⟩

theorem IsLast.adjacent_of_free {s : ℕ} {before : List (Block Obj)}
    (hlast : IsLast d (Block.free s :: before).reverse q qsize) :
    s = qsize ∧ q = d + 32 + span before := by
  rw [List.reverse_cons] at hlast
  rcases hlast with ⟨-, -, hnone⟩ | ⟨first, after, hdone, rfl, hnone⟩
  · simpa [Block.isFree] using hnone (.free s) (by simp)
  cases after using List.reverseRecOn with
  | nil =>
    obtain ⟨rfl, hs⟩ := List.append_inj' hdone rfl
    exact ⟨Block.free.inj (List.singleton_inj.mp hs), by rw [span_reverse]⟩
  | append_singleton after b =>
    rw [← List.cons_append, ← List.append_assoc] at hdone
    obtain ⟨-, hs⟩ := List.append_inj' hdone rfl
    simpa [Block.isFree, ← List.singleton_inj.mp hs] using hnone b (by simp)

theorem freeBlock_spec (hsize : 0 < size)
    (hlinked : Linked mem d (done.reverse ++ .used size o :: rest) 0)
    (hpos : Positive (done.reverse ++ .used size o :: rest)) (hp : p = d + 32 + span done)
    (hlast : IsLast d done.reverse q qsize) :
    ∃ mem' freed, freeBlock d p size q (firstFree (p + size) rest 0) mem =
        some (mem', freed, p + size + (absorb rest).1) ∧
      Freed mem d p size done rest mem' freed := by
  have hspan : d + 32 + span done.reverse = p := by rw [span_reverse, hp]
  obtain ⟨hdone, hrep⟩ := linked_append.mp hlinked
  rw [hspan] at hdone hrep
  obtain ⟨-, hrest⟩ := hrep
  obtain ⟨hpos₁, hpos₂⟩ := hpos.append
  obtain ⟨-, hpos₃⟩ := hpos₂.cons
  have hbounds := hlast.lt hpos₁
  rw [hspan] at hbounds
  have hfree : ∀ {s n : ℕ} (o : Obj), Cell.free s n ≠ .object o := by simp
  obtain ⟨hafter, hposAfter⟩ := rep_absorb hpos₃ hrest
  obtain ⟨mem₁, hsame, hobject, hcode⟩ :=
    freeBlock_merged (d := d) (by omega) hpos₃ hrest (hdone.cell_last hlast)
  have hextra := span_absorb rest
  have hnoNew : ∀ {cell : Cell}, (∀ o, cell ≠ .object o) → NoNewObject mem (mem₁.set p cell) p := by
    intro cell hcell x o hx
    obtain ⟨hx, hne⟩ := noNewObject_set_self mem₁ p hcell x o hx
    exact ⟨hobject x o hx, hne⟩
  rw [hcode]
  by_cases hadj : q + qsize = p ∧ q ≠ d
  · -- joined with the block before
    rw [if_pos hadj]
    obtain ⟨before, rfl, hq⟩ := (hlast.adjacent_iff hpos₁ hp).mp hadj
    have hend : q + (qsize + (size + (absorb rest).1)) = p + size + (absorb rest).1 := by omega
    refine ⟨_, _, rfl, ?_, ⟨before, rfl⟩, fun s' before' heq => ?_, fun x hx => ?_, ?_⟩
    · refine linked_extended hdone hpos₁ hq (hend ▸ hafter) hposAfter ?_ ?_ ?_
      · rw [Mem.set_self, hend]
      · intro x _ hx
        rw [Mem.set_of_ne (by omega), Mem.set_of_ne (by omega), hsame x (by omega)]
      · intro x hx
        rw [Mem.set_of_ne (by omega), Mem.set_of_ne (by omega), hsame x (by omega)]
    · obtain rfl := Block.free.inj (List.cons.inj heq).1
      omega
    · rw [Mem.set_of_ne (by omega), Mem.set_of_ne (by omega), hsame x (by omega)]
    · exact noNewObject_set (hnoNew (by simp)) hfree
  · -- a free block of its own
    rw [if_neg hadj]
    have hdoneHead : ∀ s before, done ≠ .free s :: before := by
      rintro s before rfl
      obtain ⟨rfl, hq⟩ := hlast.adjacent_of_free
      exact hadj ((hlast.adjacent_iff hpos₁ hp).mpr ⟨before, rfl, hq⟩)
    refine ⟨_, _, rfl, ?_, ⟨done, join_of_used hdoneHead _⟩,
      fun s before heq => absurd heq (hdoneHead s before), fun x hx => ?_, ?_⟩
    · refine linked_inserted hdone hpos₁ hlast hp hdoneHead ?_ hposAfter ?_ ?_ ?_ ?_
      · rwa [← Nat.add_assoc]
      · rw [Mem.set_self]
      · rw [Mem.set_of_ne (by omega), Mem.set_self, Nat.add_assoc]
      · intro x _ hx hne
        rw [Mem.set_of_ne hne, Mem.set_of_ne (by omega), hsame x (by omega)]
      · intro x hx
        rw [Mem.set_of_ne (by omega), Mem.set_of_ne (by omega), hsame x (by omega)]
    · rw [Mem.set_of_ne (by omega), Mem.set_of_ne (by omega), hsame x (by omega)]
    · exact noNewObject_set (hnoNew hfree) hfree

/-! ## The blocks stay apart -/

theorem Apart.not_free_free {s' : ℕ} (hapart : Apart (bs ++ .free s :: rest))
    (hbs : bs.reverse = .free s' :: before) : False := by
  rw [Apart, List.isChain_append] at hapart
  refine hapart.2.2 (.free s') ?_ (.free s) (by simp) ⟨rfl, rfl⟩
  have hlist := congrArg List.reverse hbs
  rw [List.reverse_reverse, List.reverse_cons] at hlist
  simp [hlist]

variable {o' : Obj}

theorem apart_replace (hapart : Apart (bs ++ .used s o :: rest)) :
    Apart (bs ++ .used s o' :: rest) := by
  rw [Apart, List.isChain_append, List.isChain_cons] at hapart ⊢
  refine ⟨hapart.1, ⟨fun b _ => by simp [Block.isFree], hapart.2.1.2⟩, fun b _ c hc => ?_⟩
  obtain rfl : c = .used s o' := by simpa [eq_comm] using hc
  simp [Block.isFree]

theorem apart_reverse : Apart bs.reverse ↔ Apart bs := by
  rw [Apart, List.isChain_reverse, Apart]
  constructor
  · exact List.IsChain.imp fun b c hbc => by simpa [and_comm] using hbc
  · exact List.IsChain.imp fun b c hbc => by simpa [and_comm] using hbc

theorem apart_freed (hapart : Apart (done.reverse ++ .used size o :: rest)) :
    Apart ((join done (size + (absorb rest).1)).reverse ++ (absorb rest).2) := by
  rw [Apart, List.isChain_append, List.isChain_cons] at hapart
  obtain ⟨hdone, ⟨-, hrest⟩, -⟩ := hapart
  rw [Apart, List.isChain_append]
  refine ⟨apart_reverse.mpr ((apart_reverse.mp hdone).join _), ?_, ?_⟩
  · unfold absorb
    split
    · exact (List.isChain_cons.mp hrest).2
    · exact hrest
  · intro b hb c hc hboth
    unfold absorb at hc
    split at hc
    · rename_i s after
      exact (List.isChain_cons.mp hrest).1 c hc ⟨rfl, hboth.2⟩
    · rename_i hused
      cases rest with
      | nil => simp at hc
      | cons e rest =>
        obtain rfl : e = c := by simpa using hc
        cases e with
        | free s => exact hused s rest rfl
        | used s o' => simp [Block.isFree] at hboth

theorem length_le_span (hpos : Positive bs) : bs.length ≤ span bs := by
  induction bs with
  | nil => simp
  | cons b bs ih =>
    obtain ⟨hb, hpos'⟩ := hpos.cons
    have := ih hpos'
    simp only [List.length_cons, span_cons]
    omega

theorem usedAt_absorb {addr : ℕ} :
    UsedAt (a + (absorb rest).1) (absorb rest).2 addr o ↔ UsedAt a rest addr o := by
  unfold absorb
  split
  · rw [usedAt_cons_free]
  · rfl

/-! ## One chunk -/

/-- Where a sweep stands: the blocks it has behind it (the last one first) and those it
has before it. -/
structure SweepInv (types : ℕ → TypeSpec) (c : Chunk) (mem : Mem) (done rest : List (Block Obj))
    (p q : ℕ) : Prop where
  linked : Linked mem c.data (done.reverse ++ rest) 0
  positive : Positive (done.reverse ++ rest)
  apart : Apart (done.reverse ++ rest)
  sizes : ∀ s o, .used s o ∈ rest → s = sexpHeapAlign (sexpAllocatedBytes types o)
  place : p = c.data + 32 + span done
  stop : c.heapEnd = c.data + 32 + span done + span rest
  node : IsNode c.data done.reverse q
  objects : ∀ x o, c.data ≤ x → x < c.heapEnd → mem x = .object o →
    UsedAt (c.data + 32) (done.reverse ++ rest) x o

/-- What a sweep of a chunk ends with, when it started with `start` as the largest size
freed. -/
structure Swept (c : Chunk) (start : ℕ) (s s' : SweepState) (done rest : List (Block Obj)) :
    Prop where
  linked : Linked s'.mem c.data (sweep keepMarked clearMark done rest) 0
  frame : ∀ x, x < c.data ∨ c.heapEnd ≤ x → s'.mem x = s.mem x
  objects : ∀ x o, c.data ≤ x → x < c.heapEnd → s'.mem x = .object o →
    UsedAt (c.data + 32) (sweep keepMarked clearMark done rest) x o
  le_max : s.maxFreed ≤ s'.maxFreed
  max_pos : ∀ size o, .used size o ∈ rest → o.marked = false → 0 < s'.maxFreed
  max_cases : s'.maxFreed = start ∨ .free s'.maxFreed ∈ sweep keepMarked clearMark done rest

variable {types : ℕ → TypeSpec} {c : Chunk} {s : SweepState}

theorem IsNode.cons (hnode : IsNode d done.reverse q) (b : Block Obj) :
    IsNode d (b :: done).reverse q := by
  rcases hnode with rfl | ⟨before, s, after, hdone, rfl⟩
  · exact .inl rfl
  · exact .inr ⟨before, s, after ++ [b], by rw [List.reverse_cons, hdone]; simp, rfl⟩

theorem IsLast.isNode_join (hlast : IsLast d done.reverse q qsize) (size : ℕ) :
    IsNode d (join done size).reverse q := by
  unfold join
  split
  · rename_i s before
    rcases hlast.isNode with rfl | ⟨first, s', after, hdone, rfl⟩
    · exact .inl rfl
    cases after using List.reverseRecOn with
    | nil =>
      have hfirst : first = before.reverse := by
        rw [List.reverse_cons] at hdone
        exact ((List.append_inj' hdone rfl).1).symm
      exact .inr ⟨first, s + size, [], by rw [List.reverse_cons, hfirst], rfl⟩
    | append_singleton after b =>
      have hbefore : before.reverse = first ++ .free s' :: after := by
        rw [List.reverse_cons, ← List.cons_append, ← List.append_assoc] at hdone
        exact (List.append_inj' hdone rfl).1
      exact .inr ⟨first, s', after ++ [.free (s + size)], by
        rw [List.reverse_cons, hbefore]; simp, rfl⟩
  · exact hlast.isNode.cons _

theorem firstFree_zero_or_le (a : ℕ) (bs : List (Block Obj)) :
    firstFree a bs 0 = 0 ∨ a ≤ firstFree a bs 0 := by
  rcases firstFree_cases a 0 bs with ⟨-, hnone⟩ | ⟨before, s, after, -, -, hfirst⟩
  · exact .inl hnone
  · exact .inr (by omega)

theorem Linked.replace (hlinked : Linked mem d (bs ++ .used size o :: rest) last)
    (hpos : Positive (bs ++ .used size o :: rest)) (hp : p = d + 32 + span bs) :
    Linked (mem.set p (.object o')) d (bs ++ .used size o' :: rest) last := by
  obtain ⟨hpos₁, hpos₂⟩ := hpos.append
  obtain ⟨hsize, hpos₃⟩ := hpos₂.cons
  simp only [Block.size] at hsize
  obtain ⟨⟨hhead, hbs⟩, -, hrest⟩ := linked_append.mp hlinked
  rw [linked_append, ← hp]
  rw [← hp] at hhead hbs hrest
  refine ⟨⟨?_, ?_⟩, Mem.set_self _ _ _, ?_⟩
  · rw [Mem.set_of_ne (by omega)]
    exact hhead
  · exact hbs.congr hpos₁ fun x _ hx => Mem.set_of_ne (by omega) _ _
  · exact hrest.congr hpos₃ fun x hx _ => Mem.set_of_ne (by omega) _ _

theorem usedAt_replace {x : ℕ} {o₁ : Obj} (hused : UsedAt a (bs ++ .used size o :: rest) x o₁)
    (hne : x ≠ a + span bs) :
    UsedAt a (bs ++ .used size o' :: rest) x o₁ := by
  rw [usedAt_append, usedAt_cons_used] at hused ⊢
  rcases hused with hbs | ⟨rfl, -⟩ | hrest
  · exact .inl hbs
  · exact absurd rfl hne
  · exact .inr (.inr hrest)

theorem SweepInv.seek {b : Block Obj} (hinv : SweepInv types c mem done (b :: rest) p q) :
    p < c.heapEnd ∧ Rep mem p (b :: rest) 0 ∧
      ∃ q' qsize, seekFree mem p (c.size + 1) q = some (q', firstFree p (b :: rest) 0) ∧
        IsLast c.data done.reverse q' qsize := by
  have hspan := span_reverse done
  have hb := hinv.positive b (by simp)
  have hpos := hinv.positive.append.1
  have hlt : p < c.heapEnd := by
    rw [hinv.stop, hinv.place, span_cons]
    omega
  have hplace : p = c.data + 32 + span done.reverse := by rw [hspan, hinv.place]
  obtain ⟨hdone, hrep⟩ := linked_append.mp hinv.linked
  rw [← hplace] at hdone hrep
  have hfuel : done.reverse.length < c.size + 1 := by
    have hle := length_le_span hpos
    have hstop := hinv.stop
    rw [Chunk.heapEnd] at hstop
    omega
  exact ⟨hlt, hrep, seekFree_spec (c.size + 1) hpos hdone hinv.node hplace
    (firstFree_zero_or_le p (b :: rest)) hfuel⟩

theorem firstFree_used_ne (hsize : 0 < size) (hp : 0 < p) :
    firstFree p (.used size o :: rest) 0 ≠ p := by
  rw [firstFree_used]
  have hle := firstFree_zero_or_le (p + size) rest
  omega

theorem SweepInv.skip {size q' : ℕ} (hinv : SweepInv types c mem done (.free size :: rest) p q)
    (hlast : IsLast c.data done.reverse q' qsize) :
    SweepInv types c mem (.free size :: done) rest (p + size) q' := by
  have hblocks : (Block.free size :: done).reverse ++ rest = done.reverse ++ .free size :: rest := by
    simp
  refine ⟨hblocks ▸ hinv.linked, hblocks ▸ hinv.positive, hblocks ▸ hinv.apart, ?_, ?_, ?_,
    hlast.isNode.cons _, hblocks ▸ hinv.objects⟩
  · exact fun s o hmem => hinv.sizes s o (List.mem_cons_of_mem _ hmem)
  · rw [hinv.place, span_cons, Block.size]
    omega
  · rw [hinv.stop, span_cons, span_cons, Block.size]
    omega

theorem SweepInv.keep {size q' : ℕ} (o' : Obj)
    (hinv : SweepInv types c mem done (.used size o :: rest) p q)
    (hlast : IsLast c.data done.reverse q' qsize) :
    SweepInv types c (mem.set p (.object o')) (.used size o' :: done) rest
      (p + size) q' := by
  have hblocks : (Block.used size o' :: done).reverse ++ rest =
      done.reverse ++ .used size o' :: rest := by simp
  have hp : p = c.data + 32 + span done.reverse := by rw [span_reverse, hinv.place]
  refine ⟨hblocks ▸ hinv.linked.replace hinv.positive hp, ?_, hblocks ▸ apart_replace hinv.apart,
    ?_, ?_, ?_, hlast.isNode.cons _, ?_⟩
  · intro b hb
    rw [hblocks] at hb
    rcases List.mem_append.mp hb with hb | hb
    · exact hinv.positive b (List.mem_append_left _ hb)
    · rcases List.mem_cons.mp hb with rfl | hb
      · exact hinv.positive (.used size o) (by simp)
      · exact hinv.positive b (by simp [hb])
  · exact fun s o hmem => hinv.sizes s o (List.mem_cons_of_mem _ hmem)
  · rw [hinv.place, span_cons, Block.size]
    omega
  · rw [hinv.stop, span_cons, span_cons, Block.size, Block.size]
    omega
  · intro x o₁ hlow hhigh hx
    rw [hblocks]
    by_cases hxp : x = p
    · subst hxp
      rw [Mem.set_self] at hx
      obtain rfl := Cell.object.inj hx
      exact usedAt_append.mpr (.inr (usedAt_cons_used.mpr (.inl ⟨hp, rfl⟩)))
    · rw [Mem.set_of_ne hxp] at hx
      exact usedAt_replace (hinv.objects x o₁ hlow hhigh hx) (by rw [← hp]; exact hxp)

private theorem SweepInv.freed {size freed q' : ℕ} {o : Obj}
    (hinv : SweepInv types c mem done (.used size o :: rest) p q)
    (hlast : IsLast c.data done.reverse q' qsize)
    (hfreed : Freed mem c.data p size done rest mem' freed) :
    SweepInv types c mem' (join done (size + (absorb rest).1)) (absorb rest).2
      (p + size + (absorb rest).1) q' := by
  have hspan := span_absorb rest
  obtain ⟨hpos₁, hpos₂⟩ := hinv.positive.append
  obtain ⟨hsize, hpos₃⟩ := hpos₂.cons
  simp only [Block.size] at hsize
  refine ⟨hfreed.linked, ?_, apart_freed hinv.apart, ?_, ?_, ?_, hlast.isNode_join _, ?_⟩
  · intro b hb
    rcases List.mem_append.mp hb with hb | hb
    · rw [List.mem_reverse] at hb
      unfold join at hb
      split at hb
      · rcases List.mem_cons.mp hb with rfl | hb
        · simp only [Block.size]
          omega
        · exact hpos₁ b (by simp [hb])
      · rcases List.mem_cons.mp hb with rfl | hb
        · simp only [Block.size]
          omega
        · exact hpos₁ b (by simpa using hb)
    · exact (rep_absorb hpos₃ (linked_append.mp hinv.linked).2.2).2 b hb
  · intro s o' hmem
    refine hinv.sizes s o' (List.mem_cons_of_mem _ ?_)
    unfold absorb at hmem
    split at hmem
    · exact List.mem_cons_of_mem _ hmem
    · exact hmem
  · rw [span_join, hinv.place]
    omega
  · rw [span_join, hinv.stop, span_cons, Block.size]
    omega
  · intro x o' hlow hhigh hx
    obtain ⟨hx, hne⟩ := hfreed.objects x o' hx
    have hused := hinv.objects x o' hlow hhigh hx
    rw [usedAt_append, usedAt_cons_used, span_reverse, ← hinv.place] at hused
    rw [usedAt_append, usedAt_join, span_reverse, span_join]
    rcases hused with hdone | ⟨hxp, -⟩ | hrest
    · exact .inl hdone
    · exact absurd hxp hne
    refine .inr ?_
    have hplace : c.data + 32 + (span done + (size + (absorb rest).1)) =
        p + size + (absorb rest).1 := by
      rw [hinv.place]
      omega
    rw [hplace, usedAt_absorb]
    exact hrest

private theorem max_mem_join {start old freed n : ℕ} (hold : old = start ∨ .free old ∈ done)
    (hjoin : join done n = .free freed :: before)
    (hlarger : ∀ s before, done = .free s :: before → s < freed) :
    max old freed = start ∨ .free (max old freed) ∈ join done n := by
  rcases Nat.lt_or_ge freed old with hlt | hge
  · rw [max_eq_left hlt.le]
    refine hold.imp_right fun hmem => ?_
    unfold join
    split
    · rename_i s before'
      rcases List.mem_cons.mp hmem with heq | hmem
      · obtain rfl := Block.free.inj heq
        have := hlarger old before' rfl
        omega
      · exact List.mem_cons_of_mem _ hmem
    · exact List.mem_cons_of_mem _ hmem
  · rw [max_eq_right hge, hjoin]
    exact .inr List.mem_cons_self

theorem sweepLoop_spec (fuel : ℕ) {start : ℕ} (hinv : SweepInv types c s.mem done rest p q)
    (hstart : s.maxFreed = start ∨ .free s.maxFreed ∈ done) (hfuel : rest.length < fuel) :
    ∃ s', sweepLoop types c fuel p q s = some s' ∧ Swept c start s s' done rest := by
  induction fuel generalizing done rest p q s with
  | zero => omega
  | succ fuel ih =>
    rw [sweepLoop]
    cases rest with
    -- nothing is left: the loop stops at the end of the chunk
    | nil =>
      have hend : ¬ p < c.heapEnd := by
        rw [hinv.stop, hinv.place, span_nil]
        omega
      rw [if_neg hend]
      refine ⟨s, rfl, ?_, fun _ _ => rfl, ?_, le_rfl, by simp, ?_⟩
      · simpa [sweep] using hinv.linked
      · simpa [sweep] using hinv.objects
      · simpa [sweep] using hstart
    | cons b rest =>
      obtain ⟨hlt, hrep, q', qsize, hseek, hlast⟩ := hinv.seek
      have hb := hinv.positive b (by simp)
      rw [if_pos hlt, hseek]
      simp only [Option.bind_eq_bind, Option.bind_some]
      rw [List.length_cons] at hfuel
      cases b with
      -- a free block is skipped; it never meets another one
      | free size =>
        rw [firstFree_free, if_pos rfl, hrep.1]
        simp only
        have hjoin : join done size = .free size :: done :=
          join_of_used (fun s' before heq => Apart.not_free_free hinv.apart
            ((List.reverse_reverse done).trans heq)) size
        obtain ⟨s', hrun, hswept⟩ := ih (hinv.skip hlast)
          (hstart.imp_right (List.mem_cons_of_mem _)) (by omega)
        refine ⟨s', hrun, ?_⟩
        rw [← hjoin] at hswept
        refine ⟨hswept.linked, hswept.frame, hswept.objects, hswept.le_max, ?_, hswept.max_cases⟩
        intro s₀ o hmem
        exact hswept.max_pos s₀ o (by simpa using hmem)
      | used size o =>
        have hsize : size = sexpHeapAlign (sexpAllocatedBytes types o) :=
          hinv.sizes size o List.mem_cons_self
        simp only [Block.size] at hb
        have hne : firstFree p (.used size o :: rest) 0 ≠ p := by
          have hp := hinv.place
          exact firstFree_used_ne hb (by omega)
        have hobj : s.mem.obj? p = some o := by rw [Mem.obj?, hrep.1]
        rw [if_neg hne, hobj]
        simp only [Option.bind_some, ← hsize]
        cases hmark : o.marked with
        -- an unmarked object is freed and joined with its free neighbours
        | false =>
          obtain ⟨mem', freed, hrun, hfreed⟩ := freeBlock_spec hb hinv.linked hinv.positive
            hinv.place hlast
          rw [firstFree_used, hrun]
          simp only [Bool.not_false, if_true, Option.bind_some]
          obtain ⟨before, hjoin⟩ := hfreed.block
          have hlen := length_absorb_le rest
          obtain ⟨s', hloop, hswept⟩ := ih
            (s := ⟨mem', max s.maxFreed freed, s.sumFreed + size⟩) (hinv.freed hlast hfreed)
            (max_mem_join hstart hjoin hfreed.larger) (by omega)
          have hfreedPos : 0 < freed := by
            have hmem : Block.free freed ∈
                (join done (size + (absorb rest).1)).reverse ++ (absorb rest).2 := by
              rw [hjoin]
              simp
            exact (hinv.freed hlast hfreed).positive _ hmem
          have hmax : max s.maxFreed freed ≤ s'.maxFreed := hswept.le_max
          have hresult : sweep keepMarked clearMark done (.used size o :: rest) =
              sweep keepMarked clearMark (join done (size + (absorb rest).1))
                (absorb rest).2 := by
            rw [sweep, keepMarked, hmark, ← sweep_absorb]
            rfl
          refine ⟨s', hloop, ?_⟩
          refine ⟨hresult ▸ hswept.linked, fun x hx => ?_, hresult ▸ hswept.objects, by omega,
            fun _ _ _ _ => by omega, hresult ▸ hswept.max_cases⟩
          refine (hswept.frame x hx).trans (hfreed.frame x ?_)
          have hstop := hinv.stop
          rw [span_cons, Block.size] at hstop
          have hp := hinv.place
          omega
        -- a marked object only loses its mark
        | true =>
          simp only [Bool.not_true, Bool.false_eq_true, if_false]
          have hresult : sweep keepMarked clearMark done (.used size o :: rest) =
              sweep keepMarked clearMark (.used size (clearMark o) :: done) rest := by
            rw [sweep, keepMarked, hmark]
            rfl
          obtain ⟨s', hloop, hswept⟩ := ih
            (s := { s with mem := s.mem.set p (.object (clearMark o)) }) (hinv.keep (clearMark o) hlast)
            (hstart.imp_right (List.mem_cons_of_mem _)) (by omega)
          refine ⟨s', hloop, ?_⟩
          refine ⟨hresult ▸ hswept.linked, fun x hx => ?_, hresult ▸ hswept.objects,
            hswept.le_max, ?_, hresult ▸ hswept.max_cases⟩
          · rw [hswept.frame x hx]
            have hp := hinv.place
            exact Mem.set_of_ne (by omega) _ _
          · intro s₀ o₀ hmem hnot
            rcases List.mem_cons.mp hmem with heq | hmem
            · obtain ⟨-, rfl⟩ := Block.used.inj heq
              rw [hmark] at hnot
              cases hnot
            · exact hswept.max_pos s₀ o₀ hmem hnot

end ChibiScheme.Gc
