import Mathlib

/-!
# Tilings of an address range

An address range that is filled by blocks, one behind the other: free ones, and ones
that hold something.  A tiling is the list of the blocks; where a block stands follows
from the sizes of those before it.

First fit (`allocate`) and a sweep that joins what it frees with its free neighbours
(`sweep`) are functions on tilings.  What is said about them here: the range stays
filled, what is kept stays where it is, and free blocks stay apart.
-/

namespace Tiling

open List

variable {α : Type*}

/-- A free or a used block. -/
inductive Block (α : Type*) where
  | free (size : ℕ)
  | used (size : ℕ) (x : α)

namespace Block

/-- The size of a block. -/
def size : Block α → ℕ
  | free size => size
  | used size _ => size

/-- The block is free. -/
def isFree : Block α → Bool
  | free _ => true
  | used _ _ => false

end Block

/-- The size of all blocks. -/
def span (bs : List (Block α)) : ℕ := (bs.map Block.size).sum

@[simp] theorem span_nil : span ([] : List (Block α)) = 0 := rfl

@[simp] theorem span_cons (b : Block α) (bs : List (Block α)) : span (b :: bs) = b.size + span bs := by
  simp [span]

@[simp] theorem span_append (bs cs : List (Block α)) : span (bs ++ cs) = span bs + span cs := by
  simp [span]

/-- The address of the first free block, or `last` if there is none. -/
def firstFree : ℕ → List (Block α) → ℕ → ℕ
  | _, [], last => last
  | a, .free _ :: _, _ => a
  | a, .used size _ :: bs, last => firstFree (a + size) bs last

@[simp] theorem firstFree_nil (a d : ℕ) : firstFree a ([] : List (Block α)) d = d := rfl

@[simp] theorem firstFree_free (a s d : ℕ) (bs : List (Block α)) :
    firstFree a (.free s :: bs) d = a := rfl

@[simp] theorem firstFree_used (a s d : ℕ) (x : α) (bs : List (Block α)) :
    firstFree a (.used s x :: bs) d = firstFree (a + s) bs d := rfl

theorem firstFree_append (a d : ℕ) (bs cs : List (Block α)) :
    firstFree a (bs ++ cs) d = firstFree a bs (firstFree (a + span bs) cs d) := by
  induction bs generalizing a with
  | nil => simp
  | cons b bs ih =>
    cases b with
    | free s => rfl
    | used s x =>
      simp only [cons_append, firstFree_used, ih, span_cons, Block.size]
      rw [Nat.add_assoc]

theorem firstFree_cases (a d : ℕ) (bs : List (Block α)) :
    (∀ b ∈ bs, b.isFree = false) ∧ firstFree a bs d = d ∨
      ∃ before s after, bs = before ++ .free s :: after ∧ (∀ b ∈ before, b.isFree = false) ∧
        firstFree a bs d = a + span before := by
  induction bs generalizing a with
  | nil => exact .inl ⟨by simp, rfl⟩
  | cons b bs ih =>
    cases b with
    | free s => exact .inr ⟨[], s, bs, rfl, by simp, by simp⟩
    | used s x =>
      rcases ih (a + s) with ⟨hused, hnone⟩ | ⟨before, s', after, rfl, hused, hfirst⟩
      · refine .inl ⟨fun b hb => ?_, hnone⟩
        rcases mem_cons.mp hb with rfl | hb
        · rfl
        · exact hused b hb
      · refine .inr ⟨.used s x :: before, s', after, rfl, fun b hb => ?_, ?_⟩
        · rcases mem_cons.mp hb with rfl | hb
          · rfl
          · exact hused b hb
        · rw [firstFree_used, hfirst, span_cons, Block.size, Nat.add_assoc]

/-- A block of the tiling from `a` on that holds `x`, at the address `addr`. -/
def UsedAt (a : ℕ) (bs : List (Block α)) (addr : ℕ) (x : α) : Prop :=
  ∃ before size after, bs = before ++ .used size x :: after ∧ addr = a + span before

/-- No two free blocks meet. -/
def Apart (bs : List (Block α)) : Prop := bs.IsChain fun b c => ¬ (b.isFree = true ∧ c.isFree = true)

variable {a s addr : ℕ} {bs : List (Block α)} {x : α}

theorem usedAt_cons_free : UsedAt a (.free s :: bs) addr x ↔ UsedAt (a + s) bs addr x := by
  constructor
  · rintro ⟨before, size, after, hbs, haddr⟩
    cases before with
    | nil => simp at hbs
    | cons b before =>
      simp only [cons_append, List.cons.injEq] at hbs
      obtain ⟨rfl, hbs⟩ := hbs
      refine ⟨before, size, after, hbs, ?_⟩
      rw [haddr, span_cons, Block.size, Nat.add_assoc]
  · rintro ⟨before, size, after, rfl, haddr⟩
    refine ⟨.free s :: before, size, after, rfl, ?_⟩
    rw [haddr, span_cons, Block.size, Nat.add_assoc]

variable {y : α}

theorem usedAt_cons_used :
    UsedAt a (.used s y :: bs) addr x ↔ addr = a ∧ x = y ∨ UsedAt (a + s) bs addr x := by
  constructor
  · rintro ⟨before, size, after, hbs, haddr⟩
    cases before with
    | nil =>
      simp only [nil_append, List.cons.injEq, Block.used.injEq] at hbs
      exact .inl ⟨by simpa using haddr, hbs.1.2.symm⟩
    | cons b before =>
      simp only [cons_append, List.cons.injEq] at hbs
      obtain ⟨rfl, hbs⟩ := hbs
      refine .inr ⟨before, size, after, hbs, ?_⟩
      rw [haddr, span_cons, Block.size, Nat.add_assoc]
  · rintro (⟨rfl, rfl⟩ | ⟨before, size, after, rfl, haddr⟩)
    · exact ⟨[], s, bs, rfl, by simp⟩
    · refine ⟨.used s y :: before, size, after, rfl, ?_⟩
      rw [haddr, span_cons, Block.size, Nat.add_assoc]

@[simp] theorem not_usedAt_nil : ¬ UsedAt a [] addr x := by
  rintro ⟨before, size, after, hbs, -⟩
  simp at hbs

theorem usedAt_append {cs : List (Block α)} :
    UsedAt a (bs ++ cs) addr x ↔ UsedAt a bs addr x ∨ UsedAt (a + span bs) cs addr x := by
  induction bs generalizing a with
  | nil => simp
  | cons b bs ih =>
    cases b with
    | free s =>
      rw [cons_append, usedAt_cons_free, ih, usedAt_cons_free, span_cons, Block.size,
        Nat.add_assoc]
    | used s y =>
      rw [cons_append, usedAt_cons_used, ih, usedAt_cons_used, span_cons, Block.size,
        Nat.add_assoc, or_assoc]

/-! ## First fit -/

/-- What a free block of size `s` becomes when `size` of it is taken: a rest that would be
smaller than `least` is not left over. -/
def carve (least size s : ℕ) (x : α) : List (Block α) :=
  if size + least ≤ s then [.used size x, .free (s - size)] else [.used s x]

theorem span_carve {least size : ℕ} (x : α) : span (carve least size s x) = s := by
  unfold carve
  split
  · simp only [span_cons, Block.size, span_nil]
    omega
  · simp [Block.size]

theorem Apart.carve {least size : ℕ} {before after : List (Block α)}
    (hapart : Apart (before ++ .free s :: after)) :
    Apart (before ++ (carve least size s x ++ after)) := by
  rw [Apart, isChain_append, isChain_cons] at hapart
  obtain ⟨hbefore, ⟨hhead, hafter⟩, -⟩ := hapart
  have hused : ∀ (size : ℕ) (cs : List (Block α)), Apart cs →
      Apart (before ++ .used size x :: cs) := by
    intro size cs hcs
    rw [Apart, isChain_append, isChain_cons]
    refine ⟨hbefore, ⟨fun y _ => by simp [Block.isFree], hcs⟩, fun y _ z hz => ?_⟩
    obtain rfl : z = .used size x := by simpa [eq_comm] using hz
    simp [Block.isFree]
  unfold Tiling.carve
  split
  · refine hused size _ ?_
    rw [Apart]
    exact isChain_cons.mpr ⟨hhead, hafter⟩
  · exact hused s after hafter

/-! ## Sweeping -/

/-- A free block behind the blocks `done` (the last one first), joined with the one it
stands next to. -/
def join (done : List (Block α)) (s : ℕ) : List (Block α) :=
  match done with
  | .free q :: done => .free (q + s) :: done
  | done => .free s :: done

/-- Free what is not kept. -/
def sweep (keep : α → Bool) (clear : α → α) : List (Block α) → List (Block α) → List (Block α)
  | done, [] => done.reverse
  | done, .free s :: rest => sweep keep clear (join done s) rest
  | done, .used s x :: rest =>
    if keep x then sweep keep clear (.used s (clear x) :: done) rest
    else sweep keep clear (join done s) rest

theorem span_join (done : List (Block α)) (s : ℕ) : span (join done s) = span done + s := by
  unfold join
  split
  · simp only [span_cons, Block.size]
    omega
  · simp only [span_cons, Block.size]
    omega

variable {keep : α → Bool} {clear : α → α}

theorem span_sweep (done rest : List (Block α)) :
    span (sweep keep clear done rest) = span done + span rest := by
  induction rest generalizing done with
  | nil => simp [sweep, span]
  | cons b rest ih =>
    cases b with
    | free s => rw [sweep, ih, span_join, span_cons, Block.size, Nat.add_assoc]
    | used s x =>
      rw [sweep]
      split
      · rw [ih, span_cons, span_cons]
        simp only [Block.size]
        omega
      · rw [ih, span_join, span_cons, Block.size, Nat.add_assoc]

variable {done : List (Block α)}

theorem Apart.join (hapart : Apart done) (s : ℕ) : Apart (join done s) := by
  unfold Tiling.join
  split
  · rw [Apart, isChain_cons] at hapart ⊢
    exact ⟨fun b hb => by simpa [Block.isFree] using hapart.1 b hb, hapart.2⟩
  · rename_i hused
    rw [Apart, isChain_cons]
    refine ⟨fun b hb => ?_, hapart⟩
    cases b with
    | free q =>
      cases done with
      | nil => simp at hb
      | cons c done =>
        obtain rfl : c = .free q := by simpa using hb
        exact absurd rfl (hused q done)
    | used q x => simp [Block.isFree]

theorem apart_sweep (hapart : Apart done) (rest : List (Block α)) :
    Apart (sweep keep clear done rest) := by
  induction rest generalizing done with
  | nil =>
    rw [sweep, Apart, isChain_reverse]
    refine List.IsChain.imp (fun b c hbc => ?_) hapart
    simpa [flip, and_comm] using hbc
  | cons b rest ih =>
    cases b with
    | free s => exact ih (hapart.join s)
    | used s x =>
      rw [sweep]
      split
      · refine ih ?_
        rw [Apart, isChain_cons]
        exact ⟨fun b _ => by simp [Block.isFree], hapart⟩
      · exact ih (hapart.join s)

theorem usedAt_join : UsedAt a (join done s).reverse addr x ↔ UsedAt a done.reverse addr x := by
  unfold join
  split
  · simp only [reverse_cons, usedAt_append, usedAt_cons_free, not_usedAt_nil, or_false]
  · simp only [reverse_cons, usedAt_append, usedAt_cons_free, not_usedAt_nil, or_false]

variable {rest : List (Block α)}

theorem usedAt_sweep :
    UsedAt a (sweep keep clear done rest) addr y ↔ UsedAt a done.reverse addr y ∨
      ∃ x, UsedAt (a + span done) rest addr x ∧ keep x = true ∧ y = clear x := by
  induction rest generalizing done with
  | nil => simp [sweep]
  | cons b rest ih =>
    cases b with
    | free s =>
      rw [sweep, ih, usedAt_join, span_join, ← Nat.add_assoc]
      simp only [usedAt_cons_free]
    | used s x =>
      rw [sweep]
      split
      · rename_i hkeep
        rw [ih, reverse_cons, usedAt_append, span_cons, Block.size]
        have hspan : span done.reverse = span done := by simp [span]
        rw [hspan, or_assoc]
        refine or_congr_right ?_
        constructor
        · rintro (hlast | ⟨x', hused, hkeep', rfl⟩)
          · rw [usedAt_cons_used] at hlast
            obtain ⟨rfl, rfl⟩ := hlast.resolve_right not_usedAt_nil
            exact ⟨x, usedAt_cons_used.mpr (.inl ⟨rfl, rfl⟩), hkeep, rfl⟩
          · refine ⟨x', usedAt_cons_used.mpr (.inr ?_), hkeep', rfl⟩
            rwa [Nat.add_assoc, Nat.add_comm (span done)]
        · rintro ⟨x', hused, hkeep', rfl⟩
          rcases usedAt_cons_used.mp hused with ⟨rfl, rfl⟩ | hused
          · exact .inl (usedAt_cons_used.mpr (.inl ⟨rfl, rfl⟩))
          · refine .inr ⟨x', ?_, hkeep', rfl⟩
            rwa [Nat.add_comm s, ← Nat.add_assoc]
      · rename_i hnot
        rw [ih, usedAt_join, span_join, ← Nat.add_assoc]
        refine or_congr_right (exists_congr fun x' => ?_)
        rw [usedAt_cons_used]
        constructor
        · rintro ⟨hused, hkeep', rfl⟩
          exact ⟨.inr hused, hkeep', rfl⟩
        · rintro ⟨⟨-, rfl⟩ | hused, hkeep', rfl⟩
          · exact absurd hkeep' hnot
          · exact ⟨hused, hkeep', rfl⟩

theorem used_mem_join {s' : ℕ} : .used s' x ∈ join done s ↔ .used s' x ∈ done := by
  unfold join
  split
  · simp
  · simp

theorem used_mem_sweep (hmem : .used s y ∈ sweep keep clear done rest) :
    .used s y ∈ done ∨ ∃ x, .used s x ∈ rest ∧ y = clear x := by
  induction rest generalizing done with
  | nil => exact .inl (by simpa [sweep] using hmem)
  | cons b rest ih =>
    have hjoin : ∀ {t : ℕ}, .used s y ∈ sweep keep clear (join done t) rest →
        .used s y ∈ done ∨ ∃ x, .used s x ∈ b :: rest ∧ y = clear x := by
      intro t hmem
      rcases ih hmem with hdone | ⟨x, hx, hy⟩
      · exact .inl (used_mem_join.mp hdone)
      · exact .inr ⟨x, mem_cons_of_mem b hx, hy⟩
    cases b with
    | free t => exact hjoin hmem
    | used t x =>
      rw [sweep] at hmem
      split at hmem
      · rcases ih hmem with hdone | ⟨x', hx', hy⟩
        · rcases mem_cons.mp hdone with heq | hdone
          · obtain ⟨rfl, rfl⟩ := Block.used.inj heq
            exact .inr ⟨x, mem_cons_self, rfl⟩
          · exact .inl hdone
        · exact .inr ⟨x', mem_cons_of_mem _ hx', hy⟩
      · exact hjoin hmem

theorem forall_size_sweep {P : ℕ → Prop} (hadd : ∀ s t, P s → P t → P (s + t))
    (hdone : ∀ b ∈ done, P b.size) (hrest : ∀ b ∈ rest, P b.size) :
    ∀ b ∈ sweep keep clear done rest, P b.size := by
  have hjoin : ∀ {done : List (Block α)} {s : ℕ}, (∀ b ∈ done, P b.size) → P s →
      ∀ b ∈ join done s, P b.size := by
    intro done s hdone hs b hb
    unfold join at hb
    split at hb
    · rename_i q done
      rcases mem_cons.mp hb with rfl | hb
      · exact hadd q s (hdone (.free q) mem_cons_self) hs
      · exact hdone b (mem_cons_of_mem _ hb)
    · rcases mem_cons.mp hb with rfl | hb
      · exact hs
      · exact hdone b hb
  induction rest generalizing done with
  | nil => simpa [sweep] using hdone
  | cons b rest ih =>
    have hhead := hrest b mem_cons_self
    have htail : ∀ b ∈ rest, P b.size := fun c hc => hrest c (mem_cons_of_mem b hc)
    cases b with
    | free s => exact ih (hjoin hdone hhead) htail
    | used s x =>
      rw [sweep]
      split
      · refine ih (fun c hc => ?_) htail
        rcases mem_cons.mp hc with rfl | hc
        · exact hhead
        · exact hdone c hc
      · exact ih (hjoin hdone hhead) htail

end Tiling
