import ChibiScheme.Gc.Heap

/-!
# The free list of a chunk

Memory represents a tiling (`Rep`): every object stands at the start of its block, and
every free block has its size and the address of the next one.  `Linked` adds the empty
block at the start of the chunk.

The code always holds the last free block before some address and changes the links
there (`IsLast`).  Each change is a lemma: what is before that address is still
represented, up to where the last link goes.
-/

namespace ChibiScheme.Gc

open Tiling

/-- The blocks are in memory, from `a` on; the last free one is linked to `last`. -/
def Rep (mem : Mem) : ℕ → List (Block Obj) → ℕ → Prop
  | _, [], _ => True
  | a, .free s :: bs, last => mem a = .free s (firstFree (a + s) bs last) ∧ Rep mem (a + s) bs last
  | a, .used s o :: bs, last => mem a = .object o ∧ Rep mem (a + s) bs last

/-- No block is empty. -/
def Positive (bs : List (Block Obj)) : Prop := ∀ b ∈ bs, 0 < b.size

variable {mem mem' : Mem} {a d last last' p q qsize : ℕ} {bs cs done : List (Block Obj)}

theorem Positive.cons {b : Block Obj} (hpos : Positive (b :: bs)) : 0 < b.size ∧ Positive bs :=
  ⟨hpos b List.mem_cons_self, fun c hc => hpos c (List.mem_cons_of_mem b hc)⟩

theorem Positive.append (hpos : Positive (bs ++ cs)) : Positive bs ∧ Positive cs :=
  ⟨fun b hb => hpos b (List.mem_append_left cs hb), fun b hb => hpos b (List.mem_append_right bs hb)⟩

theorem rep_append : Rep mem a (bs ++ cs) last ↔
    Rep mem a bs (firstFree (a + span bs) cs last) ∧ Rep mem (a + span bs) cs last := by
  induction bs generalizing a with
  | nil => simp [Rep]
  | cons b bs ih =>
    cases b with
    | free s =>
      rw [List.cons_append, Rep, ih, Rep, firstFree_append, span_cons, Block.size, ← Nat.add_assoc,
        and_assoc]
    | used s o => rw [List.cons_append, Rep, ih, Rep, span_cons, Block.size, ← Nat.add_assoc, and_assoc]

theorem Rep.congr (hrep : Rep mem a bs last) (hpos : Positive bs)
    (hsame : ∀ x, a ≤ x → x < a + span bs → mem' x = mem x) : Rep mem' a bs last := by
  induction bs generalizing a with
  | nil => trivial
  | cons b bs ih =>
    obtain ⟨hb, hpos'⟩ := hpos.cons
    rw [span_cons] at hsame
    have hhead : mem' a = mem a := hsame a le_rfl (by omega)
    cases b with
    | free s =>
      refine ⟨hhead.trans hrep.1, ih hrep.2 hpos' fun x hlow hhigh => ?_⟩
      simp only [Block.size] at hsame
      exact hsame x (by omega) (by omega)
    | used s o =>
      refine ⟨hhead.trans hrep.1, ih hrep.2 hpos' fun x hlow hhigh => ?_⟩
      simp only [Block.size] at hsame
      exact hsame x (by omega) (by omega)

theorem Rep.of_used (hrep : Rep mem a bs last) (hused : ∀ b ∈ bs, b.isFree = false) :
    Rep mem a bs last' := by
  induction bs generalizing a with
  | nil => trivial
  | cons b bs ih =>
    have hrest := fun c hc => hused c (List.mem_cons_of_mem b hc)
    cases b with
    | free s => simpa [Block.isFree] using hused (.free s) List.mem_cons_self
    | used s o => exact ⟨hrep.1, ih hrep.2 hrest⟩

/-- The free blocks of a chunk, linked from the empty one at `d`. -/
def Linked (mem : Mem) (d : ℕ) (bs : List (Block Obj)) (last : ℕ) : Prop :=
  mem d = .free 0 (firstFree (d + 32) bs last) ∧ Rep mem (d + 32) bs last

/-- The last free block of `done` is at `q`: the empty one at the start of the chunk, if
there is no other. -/
def IsLast (d : ℕ) (done : List (Block Obj)) (q qsize : ℕ) : Prop :=
  (q = d ∧ qsize = 0 ∧ ∀ b ∈ done, b.isFree = false) ∨
  ∃ before after, done = before ++ .free qsize :: after ∧ q = d + 32 + span before ∧
    ∀ b ∈ after, b.isFree = false

theorem IsLast.lt (hlast : IsLast d done q qsize) (hpos : Positive done) :
    d ≤ q ∧ q < d + 32 + span done := by
  rcases hlast with ⟨rfl, -, -⟩ | ⟨before, after, rfl, rfl, -⟩
  · omega
  · have hq := hpos (.free qsize) (by simp)
    simp only [span_append, span_cons, Block.size] at hq ⊢
    omega

theorem firstFree_of_used (a last : ℕ) (hused : ∀ b ∈ bs, b.isFree = false) :
    firstFree a bs last = last := by
  rcases firstFree_cases a last bs with ⟨-, hnone⟩ | ⟨before, s, after, rfl, -, -⟩
  · exact hnone
  · simpa [Block.isFree] using hused (.free s) (by simp)

theorem Linked.cell_last (hlinked : Linked mem d done last) (hlast : IsLast d done q qsize) :
    mem q = .free qsize last := by
  rcases hlast with ⟨rfl, rfl, hused⟩ | ⟨before, after, rfl, rfl, hused⟩
  · rw [hlinked.1, firstFree_of_used _ _ hused]
  · have hrep := (rep_append.mp hlinked.2).2
    rw [hrep.1, firstFree_of_used _ _ hused]

theorem Linked.relink (hlinked : Linked mem d done last) (hlast : IsLast d done q qsize)
    (hpos : Positive done) (hq : mem' q = .free qsize last')
    (hsame : ∀ x, d ≤ x → x < d + 32 + span done → x ≠ q → mem' x = mem x) :
    Linked mem' d done last' := by
  rcases hlast with ⟨rfl, rfl, hused⟩ | ⟨before, after, rfl, rfl, hused⟩
  · refine ⟨by rw [hq, firstFree_of_used _ _ hused], ?_⟩
    refine (hlinked.2.of_used hused).congr hpos fun x hlow hhigh => ?_
    exact hsame x (by omega) hhigh (by omega)
  · obtain ⟨hbefore, hqcell, hafter⟩ := rep_append.mp hlinked.2
    obtain ⟨hpos₁, hpos₂⟩ := hpos.append
    obtain ⟨hqpos, hpos₃⟩ := hpos₂.cons
    simp only [span_append, span_cons, Block.size] at hsame hqpos
    refine ⟨?_, rep_append.mpr ⟨?_, ?_, ?_⟩⟩
    · rw [hsame d le_rfl (by omega) (by omega), hlinked.1, firstFree_append, firstFree_append]
      rfl
    · refine Rep.congr ?_ hpos₁ fun x hlow hhigh => hsame x (by omega) (by omega) (by omega)
      simpa using hbefore
    · rw [hq, firstFree_of_used _ _ hused]
    · refine (hafter.of_used hused).congr hpos₃ fun x hlow hhigh => ?_
      exact hsame x (by omega) (by omega) (by omega)

theorem Linked.extend {before : List (Block Obj)} {size : ℕ}
    (hlinked : Linked mem d (before ++ [.free qsize]) last)
    (hpos : Positive (before ++ [.free qsize])) (hq : q = d + 32 + span before)
    (hcell : mem' q = .free size last')
    (hsame : ∀ x, d ≤ x → x < q → mem' x = mem x) :
    Linked mem' d (before ++ [.free size]) last' := by
  subst hq
  obtain ⟨hbefore, -⟩ := rep_append.mp hlinked.2
  refine ⟨?_, rep_append.mpr ⟨?_, hcell, trivial⟩⟩
  · rw [hsame d le_rfl (by omega), hlinked.1, firstFree_append, firstFree_append]
    rfl
  · refine Rep.congr ?_ hpos.append.1 fun x hlow hhigh => hsame x (by omega) hhigh
    simpa using hbefore

theorem linked_append : Linked mem d (bs ++ cs) last ↔
    Linked mem d bs (firstFree (d + 32 + span bs) cs last) ∧
      Rep mem (d + 32 + span bs) cs last := by
  rw [Linked, rep_append, Linked, firstFree_append, and_assoc]

/-! ## Walking the free list -/

/-- A free block of `done`, or the empty one. -/
def IsNode (d : ℕ) (done : List (Block Obj)) (q : ℕ) : Prop :=
  q = d ∨ ∃ before s after, done = before ++ .free s :: after ∧ q = d + 32 + span before

theorem IsLast.isNode (hlast : IsLast d done q qsize) : IsNode d done q := by
  rcases hlast with ⟨rfl, -, -⟩ | ⟨before, after, rfl, rfl, -⟩
  · exact .inl rfl
  · exact .inr ⟨before, qsize, after, rfl, rfl⟩

private theorem seekFree_from (fuel : ℕ) {after : List (Block Obj)} {r s : ℕ} (ha : 0 < a)
    (hpos : Positive after) (hq : mem q = .free s (firstFree a after r)) (hrep : Rep mem a after r)
    (hr : r = 0 ∨ a + span after ≤ r) (hfuel : after.length < fuel) :
    ∃ q' qsize, seekFree mem (a + span after) fuel q = some (q', r) ∧
      ((∀ b ∈ after, b.isFree = false) ∧ q' = q ∧ qsize = s ∨
        ∃ mid rest, after = mid ++ .free qsize :: rest ∧ q' = a + span mid ∧
          ∀ b ∈ rest, b.isFree = false) := by
  induction fuel generalizing q a after s with
  | zero => omega
  | succ fuel ih =>
    rcases firstFree_cases a r after with ⟨hused, hnone⟩ | ⟨mid, s', rest, rfl, hused, hfirst⟩
    · refine ⟨q, s, ?_, .inl ⟨hused, rfl, rfl⟩⟩
      rw [hnone] at hq
      rw [seekFree, hq]
      exact if_neg (by omega)
    · obtain ⟨-, hcell, hrest⟩ := rep_append.mp hrep
      obtain ⟨-, hpos'⟩ := hpos.append
      obtain ⟨hs', hpos'⟩ := hpos'.cons
      simp only [Block.size] at hs'
      have hspan : a + span (mid ++ .free s' :: rest) = a + span mid + s' + span rest := by
        simp only [span_append, span_cons, Block.size]
        omega
      rw [hspan] at hr ⊢
      obtain ⟨q', qsize, hseek, hcases⟩ := ih (show 0 < a + span mid + s' by omega) hpos' hcell
        hrest hr (by simp only [List.length_append, List.length_cons] at hfuel; omega)
      refine ⟨q', qsize, ?_, .inr ?_⟩
      · rw [seekFree, hq, hfirst]
        simp only
        rw [if_pos (by omega)]
        exact hseek
      · rcases hcases with ⟨hnone, rfl, rfl⟩ | ⟨mid', rest', rfl, rfl, hnone⟩
        · exact ⟨mid, rest, rfl, rfl, hnone⟩
        · refine ⟨mid ++ .free s' :: mid', rest', by simp, ?_, hnone⟩
          simp only [span_append, span_cons, Block.size]
          omega

theorem seekFree_spec {r : ℕ} (fuel : ℕ) (hpos : Positive done)
    (hlinked : Linked mem d done r) (hnode : IsNode d done q)
    (hp : p = d + 32 + span done) (hr : r = 0 ∨ p ≤ r) (hfuel : done.length < fuel) :
    ∃ q' qsize, seekFree mem p fuel q = some (q', r) ∧ IsLast d done q' qsize := by
  subst hp
  rcases hnode with rfl | ⟨before, s, after, rfl, rfl⟩
  · obtain ⟨q', qsize, hseek, hcases⟩ := seekFree_from fuel (Nat.succ_pos _) hpos hlinked.1 hlinked.2
      hr hfuel
    refine ⟨q', qsize, hseek, ?_⟩
    rcases hcases with ⟨hused, rfl, rfl⟩ | ⟨mid, rest, rfl, rfl, hused⟩
    · exact .inl ⟨rfl, rfl, hused⟩
    · exact .inr ⟨mid, rest, rfl, rfl, hused⟩
  · obtain ⟨-, hcell, hafter⟩ := rep_append.mp hlinked.2
    obtain ⟨-, hpos'⟩ := hpos.append
    obtain ⟨hs, hpos'⟩ := hpos'.cons
    simp only [Block.size] at hs
    have hspan : d + 32 + span (before ++ .free s :: after) =
        d + 32 + span before + s + span after := by
      simp only [span_append, span_cons, Block.size]
      omega
    rw [hspan] at hr ⊢
    obtain ⟨q', qsize, hseek, hcases⟩ := seekFree_from fuel (by omega) hpos' hcell hafter hr
      (by simp only [List.length_append, List.length_cons] at hfuel; omega)
    refine ⟨q', qsize, hseek, .inr ?_⟩
    rcases hcases with ⟨hused, rfl, rfl⟩ | ⟨mid, rest, rfl, rfl, hused⟩
    · exact ⟨before, after, rfl, rfl, hused⟩
    · refine ⟨before ++ .free s :: mid, rest, by simp, ?_, hused⟩
      simp only [span_append, span_cons, Block.size]
      omega

/-! ## Allocation from the free list

`sexp_try_alloc` is first fit: it takes the first free block that is large enough, in
the first chunk that has one, and leaves what it does not need as a free block. -/

variable {size ls1 ls1size : ℕ} {before after : List (Block Obj)}

theorem IsLast.append_used {mid : List (Block Obj)} (hlast : IsLast d before ls1 ls1size)
    (hused : ∀ b ∈ mid, b.isFree = false) : IsLast d (before ++ mid) ls1 ls1size := by
  rcases hlast with ⟨rfl, rfl, hnone⟩ | ⟨first, rest, rfl, rfl, hnone⟩
  · refine .inl ⟨rfl, rfl, fun b hb => ?_⟩
    rcases List.mem_append.mp hb with hb | hb
    · exact hnone b hb
    · exact hused b hb
  · refine .inr ⟨first, rest ++ mid, by simp, rfl, fun b hb => ?_⟩
    rcases List.mem_append.mp hb with hb | hb
    · exact hnone b hb
    · exact hused b hb

/-- The memory in which the block of size `s` at `ls2` was taken: its rest, if there is
one, is free, and the last free block before it is linked past it. -/
private theorem take_spec {s ls2 next : ℕ} (hsize : 0 < size) (hle : size ≤ s)
    (hpos : Positive (before ++ .free s :: after))
    (hlinked : Linked mem d (before ++ .free s :: after) 0)
    (hlast : IsLast d before ls1 ls1size) (hls2 : ls2 = d + 32 + span before)
    (hnext : next = firstFree (ls2 + s) after 0) :
    ∃ mem', (if s ≥ size + 32 then do
          let mem ← setNext (mem.set (ls2 + size) (.free (s - size) next)) ls1 (ls2 + size)
          some (some (ls2, mem.set ls2 .blank))
        else do
          let mem ← setNext mem ls1 next
          some (some (ls2, mem.set ls2 .blank))) = some (some (ls2, mem')) ∧
      (∀ o, Linked (mem'.set ls2 (.object o)) d (before ++ (carve 32 size s o ++ after)) 0) ∧
      (∀ x, x < d ∨ ls2 + s ≤ x → mem' x = mem x) ∧
      ∀ x o, mem' x = .object o → mem x = .object o := by
  obtain ⟨hbefore, hcell, hafter⟩ := linked_append.mp hlinked
  rw [← hls2] at hbefore hcell hafter
  obtain ⟨hpos₁, hpos₂⟩ := hpos.append
  obtain ⟨-, hpos₃⟩ := hpos₂.cons
  obtain ⟨hlow, hhigh⟩ := hlast.lt hpos₁
  have hls1 := hbefore.cell_last hlast
  -- the block is cut if a free block can stay behind it
  by_cases hsplit : s ≥ size + 32
  · have hne : ls1 ≠ ls2 + size := by omega
    have hset : (mem.set (ls2 + size) (.free (s - size) next)) ls1 =
        .free ls1size (firstFree ls2 (.free s :: after) 0) := by
      rw [Mem.set_of_ne hne, hls1]
    refine ⟨((mem.set (ls2 + size) (.free (s - size) next)).set ls1 (.free ls1size (ls2 + size))).set
      ls2 .blank, ?_, ?_, ?_, ?_⟩
    · rw [if_pos hsplit, setNext, hset]
      rfl
    · intro o
      set mem' := (((mem.set (ls2 + size) (.free (s - size) next)).set ls1
        (.free ls1size (ls2 + size))).set ls2 .blank).set ls2 (.object o) with hmem'
      have hother : ∀ x, x ≠ ls2 → x ≠ ls1 → x ≠ ls2 + size → mem' x = mem x := by
        intro x h₁ h₂ h₃
        rw [hmem', Mem.set_of_ne h₁, Mem.set_of_ne h₁, Mem.set_of_ne h₂, Mem.set_of_ne h₃]
      rw [carve, if_pos (by omega), linked_append, ← hls2]
      refine ⟨hbefore.relink hlast hpos₁ ?_ fun x hx₁ hx₂ hx₃ => ?_, ?_, ?_, ?_⟩
      · rw [hmem', Mem.set_of_ne (by omega), Mem.set_of_ne (by omega), Mem.set_self]
        rfl
      · exact hother x (by omega) hx₃ (by omega)
      · rw [hmem', Mem.set_self]
      · rw [hmem', Mem.set_of_ne (by omega), Mem.set_of_ne (by omega), Mem.set_of_ne (by omega),
          Mem.set_self, hnext]
        congr 2
        omega
      · have hend : ls2 + size + (s - size) = ls2 + s := by omega
        rw [hend]
        exact hafter.congr hpos₃ fun x hx₁ hx₂ => hother x (by omega) (by omega) (by omega)
    · intro x hx
      rw [Mem.set_of_ne (by omega), Mem.set_of_ne (by omega), Mem.set_of_ne (by omega)]
    · intro x o hx
      by_cases h₁ : x = ls2
      · subst h₁
        simp at hx
      by_cases h₂ : x = ls1
      · subst h₂
        rw [Mem.set_of_ne h₁, Mem.set_self] at hx
        simp at hx
      by_cases h₃ : x = ls2 + size
      · subst h₃
        rw [Mem.set_of_ne h₁, Mem.set_of_ne h₂, Mem.set_self] at hx
        simp at hx
      · rwa [Mem.set_of_ne h₁, Mem.set_of_ne h₂, Mem.set_of_ne h₃] at hx
  · refine ⟨(mem.set ls1 (.free ls1size next)).set ls2 .blank, ?_, ?_, ?_, ?_⟩
    · rw [if_neg hsplit, setNext, hls1]
      rfl
    · intro o
      set mem' := ((mem.set ls1 (.free ls1size next)).set ls2 .blank).set ls2 (.object o) with hmem'
      have hother : ∀ x, x ≠ ls2 → x ≠ ls1 → mem' x = mem x := by
        intro x h₁ h₂
        rw [hmem', Mem.set_of_ne h₁, Mem.set_of_ne h₁, Mem.set_of_ne h₂]
      rw [carve, if_neg (by omega), linked_append, ← hls2]
      refine ⟨hbefore.relink hlast hpos₁ ?_ fun x hx₁ hx₂ hx₃ => ?_, ?_, ?_⟩
      · rw [hmem', Mem.set_of_ne (by omega), Mem.set_of_ne (by omega), Mem.set_self, hnext]
        rfl
      · exact hother x (by omega) hx₃
      · rw [hmem', Mem.set_self]
      · exact hafter.congr hpos₃ fun x hx₁ hx₂ => hother x (by omega) (by omega)
    · intro x hx
      rw [Mem.set_of_ne (by omega), Mem.set_of_ne (by omega)]
    · intro x o hx
      by_cases h₁ : x = ls2
      · subst h₁
        simp at hx
      by_cases h₂ : x = ls1
      · subst h₂
        rw [Mem.set_of_ne h₁, Mem.set_self] at hx
        simp at hx
      · rwa [Mem.set_of_ne h₁, Mem.set_of_ne h₂] at hx

/-- What `sexp_try_alloc` does in a chunk in which it finds a block. -/
structure Taken (mem : Mem) (d size : ℕ) (bs : List (Block Obj)) (addr : ℕ) (mem' : Mem)
    (before : List (Block Obj)) (s : ℕ) (after : List (Block Obj)) : Prop where
  blocks : bs = before ++ .free s :: after
  large : size ≤ s
  place : addr = d + 32 + span before
  linked : ∀ o, Linked (mem'.set addr (.object o)) d (before ++ (carve 32 size s o ++ after)) 0
  frame : ∀ x, x < d ∨ d + 32 + span bs ≤ x → mem' x = mem x
  objects : ∀ x o, mem' x = .object o → mem x = .object o

private theorem tryAllocList_from (fuel : ℕ) (hsize : 0 < size) (hpos : Positive (before ++ after))
    (hlinked : Linked mem d (before ++ after) 0) (hlast : IsLast d before ls1 ls1size)
    (hsmall : ∀ s, .free s ∈ before → s < size) (hfuel : after.length < fuel) :
    (∃ addr mem' b s a, tryAllocList size fuel ls1 (firstFree (d + 32 + span before) after 0) mem =
        some (some (addr, mem')) ∧ Taken mem d size (before ++ after) addr mem' b s a) ∨
    tryAllocList size fuel ls1 (firstFree (d + 32 + span before) after 0) mem = some none ∧
      ∀ s, .free s ∈ before ++ after → s < size := by
  induction fuel generalizing before after ls1 ls1size with
  | zero => omega
  | succ fuel ih =>
    rcases firstFree_cases (d + 32 + span before) 0 after with
      ⟨hused, hnone⟩ | ⟨mid, s, rest, rfl, hused, hfirst⟩
    · refine .inr ⟨by rw [hnone, tryAllocList, if_pos rfl], fun s hs => ?_⟩
      rcases List.mem_append.mp hs with hs | hs
      · exact hsmall s hs
      · simpa [Block.isFree] using hused _ hs
    · rw [← List.append_assoc] at hlinked hpos ⊢
      have hlast' := hlast.append_used hused
      have hls2 : d + 32 + span before + span mid = d + 32 + span (before ++ mid) := by
        rw [span_append, Nat.add_assoc]
      have hcell := (linked_append.mp hlinked).2.1
      rw [← hls2] at hcell
      rw [hfirst, tryAllocList, if_neg (by omega), hcell]
      simp only
      by_cases hfit : size ≤ s
      · rw [if_pos hfit]
        obtain ⟨mem', hrun, hlinked', hframe, hobjects⟩ := take_spec hsize hfit hpos hlinked hlast'
          hls2 rfl
        refine .inl ⟨_, mem', _, _, _, hrun, rfl, hfit, hls2, hlinked', fun x hx => ?_, hobjects⟩
        refine hframe x ?_
        simp only [span_append, span_cons, Block.size] at hx
        omega
      · rw [if_neg hfit]
        have hblocks : before ++ mid ++ .free s :: rest = (before ++ mid ++ [.free s]) ++ rest := by
          simp
        rw [hblocks] at hpos hlinked ⊢
        have hspan : d + 32 + span (before ++ mid ++ [.free s]) =
            d + 32 + span before + span mid + s := by
          simp only [span_append, span_cons, Block.size, span_nil]
          omega
        have hlist : IsLast d (before ++ mid ++ [.free s]) (d + 32 + span before + span mid) s :=
          .inr ⟨before ++ mid, [], rfl, hls2, by simp⟩
        have hsmall' : ∀ s', .free s' ∈ before ++ mid ++ [.free s] → s' < size := by
          intro s' hs'
          simp only [List.mem_append, List.mem_singleton, Block.free.injEq] at hs'
          rcases hs' with (hs' | hs') | rfl
          · exact hsmall s' hs'
          · simpa [Block.isFree] using hused _ hs'
          · omega
        have hnext := ih hpos hlinked hlist hsmall'
          (by simp only [List.length_append, List.length_cons] at hfuel; omega)
        rw [hspan] at hnext
        exact hnext

/-- The first free block that is large enough is taken, or there is none. -/
theorem tryAllocList_spec (fuel : ℕ) (hsize : 0 < size) (hpos : Positive bs)
    (hlinked : Linked mem d bs 0) (hfuel : bs.length < fuel) :
    (∃ addr mem' b s a, tryAllocList size fuel d (firstFree (d + 32) bs 0) mem =
        some (some (addr, mem')) ∧ Taken mem d size bs addr mem' b s a) ∨
    tryAllocList size fuel d (firstFree (d + 32) bs 0) mem = some none ∧
      ∀ s, .free s ∈ bs → s < size :=
  @tryAllocList_from _ _ _ _ _ [] _ fuel hsize hpos hlinked (.inl ⟨rfl, rfl, by simp⟩) (by simp) hfuel

end ChibiScheme.Gc
