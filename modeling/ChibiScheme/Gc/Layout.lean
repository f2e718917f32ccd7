import ChibiScheme.Gc.Sweep

/-!
# The layout of a heap

What holds of a heap between two operations (`HeapOk`): every chunk is filled by its
blocks, the free ones are linked, objects are where blocks start and nowhere else, and no
reference that the collector follows is dangling.

Objects may change in place (`Mem.Updates`), as they do when they are marked and when the
program assigns to them.  The layout stays.
-/

namespace ChibiScheme.Gc

open Tiling

theorem le_sexpHeapAlign (n : ℕ) : n ≤ sexpHeapAlign n ∧ sexpHeapAlign n < n + 32 := by
  unfold sexpHeapAlign
  omega

theorem dvd_sexpHeapAlign (n : ℕ) : 32 ∣ sexpHeapAlign n := Nat.dvd_mul_left 32 _

/-- A chunk that is filled by the blocks `bs`. -/
structure ChunkOk (types : ℕ → TypeSpec) (mem : Mem) (c : Chunk) (bs : List (Block Obj)) : Prop where
  data : c.data = sexpHeapAlign (48 + c.base)
  full : c.size = 32 + span bs
  linked : Linked mem c.data bs 0
  sizes : ∀ b ∈ bs, 0 < b.size ∧ 32 ∣ b.size
  apart : Apart bs
  used : ∀ s o, .used s o ∈ bs → s = sexpHeapAlign (sexpAllocatedBytes types o)
  objects : ∀ x o, c.data ≤ x → x < c.heapEnd → mem x = .object o → UsedAt (c.data + 32) bs x o

/-- The part of memory that `malloc` returned for a chunk. -/
def Chunk.Apart (c c' : Chunk) : Prop :=
  c.base + sexpHeapPadSize c.size ≤ c'.base ∨ c'.base + sexpHeapPadSize c'.size ≤ c.base

instance : Std.Symm Chunk.Apart := ⟨fun _ _ hapart => hapart.symm⟩

/-- The address lies in the chunk. -/
def Chunk.Contains (c : Chunk) (x : ℕ) : Prop := c.data ≤ x ∧ x < c.heapEnd

/-- What holds of a heap between two operations. -/
structure HeapOk (types : ℕ → TypeSpec) (h : Heap) : Prop where
  chunk : ∀ c ∈ h.chunks, ∃ bs, ChunkOk types h.mem c bs
  disjoint : h.chunks.Pairwise Chunk.Apart
  within : ∀ x, h.mem x ≠ .blank → ∃ c ∈ h.chunks, c.Contains x
  nonempty : h.chunks ≠ []
  sound : h.mem.Sound types
  weak : ∀ a o, h.mem a = .object o → 0 < (types o.tag).weakBase →
    ∀ i < o.numWeakSlots types, (o.weakSlot types i).Valid h.mem
  present : h.weakPresent = false → ∀ a o, h.mem a = .object o → (types o.tag).weakBase = 0
  unmarked : ∀ a, ¬ h.mem.Marked a

variable {types : ℕ → TypeSpec} {mem mem' : Mem} {c c' : Chunk} {bs : List (Block Obj)}

theorem ChunkOk.positive (hok : ChunkOk types mem c bs) : Positive bs :=
  fun b hb => (hok.sizes b hb).1

theorem ChunkOk.heapEnd (hok : ChunkOk types mem c bs) : c.heapEnd = c.data + 32 + span bs := by
  rw [Chunk.heapEnd, hok.full, Nat.add_assoc]

theorem ChunkOk.bounds (hok : ChunkOk types mem c bs) :
    c.base < c.data ∧ c.heapEnd ≤ c.base + sexpHeapPadSize c.size := by
  have halign := le_sexpHeapAlign (48 + c.base)
  have hdata := hok.data
  rw [Chunk.heapEnd, sexpHeapPadSize]
  omega

variable {a last : ℕ} {o : Obj}

variable {x : ℕ}

theorem ChunkOk.not_contains {bs' : List (Block Obj)} (hok : ChunkOk types mem c bs)
    (hok' : ChunkOk types mem' c' bs') (hapart : c.Apart c') (hx : c.Contains x) :
    x < c'.data ∨ c'.heapEnd ≤ x := by
  have h₁ := hok.bounds
  have h₂ := hok'.bounds
  obtain ⟨hlow, hhigh⟩ := hx
  unfold Chunk.Apart at hapart
  omega

/-! ## Objects and blocks -/

theorem Rep.object (hrep : Rep mem a bs last) (hused : UsedAt a bs x o) : mem x = .object o := by
  obtain ⟨before, size, after, rfl, rfl⟩ := hused
  exact (rep_append.mp hrep).2.1

theorem usedAt_bounds (hused : UsedAt a bs x o) :
    ∃ size, .used size o ∈ bs ∧ a ≤ x ∧ x + size ≤ a + span bs := by
  obtain ⟨before, size, after, rfl, rfl⟩ := hused
  refine ⟨size, by simp, by omega, ?_⟩
  simp only [span_append, span_cons, Block.size]
  omega

theorem ChunkOk.object_iff (hok : ChunkOk types mem c bs) (hx : c.Contains x) :
    mem x = .object o ↔ UsedAt (c.data + 32) bs x o :=
  ⟨hok.objects x o hx.1 hx.2, hok.linked.2.object⟩

theorem ChunkOk.congr (hok : ChunkOk types mem c bs)
    (hsame : ∀ x, c.Contains x → mem' x = mem x) : ChunkOk types mem' c bs := by
  have hend := hok.heapEnd
  have hlow : ∀ x, c.data ≤ x → x < c.data + 32 + span bs → mem' x = mem x :=
    fun x h₁ h₂ => hsame x ⟨h₁, by omega⟩
  refine ⟨hok.data, hok.full, ⟨?_, ?_⟩, hok.sizes, hok.apart, hok.used, ?_⟩
  · rw [hlow c.data le_rfl (by omega)]
    exact hok.linked.1
  · exact hok.linked.2.congr hok.positive fun x h₁ h₂ => hlow x (by omega) h₂
  · intro x o h₁ h₂ hx
    rw [hsame x ⟨h₁, h₂⟩] at hx
    exact hok.objects x o h₁ h₂ hx

/-! ## Objects that change in place -/

/-- Objects have been replaced by ones of the same size. -/
def Mem.Updates (types : ℕ → TypeSpec) (mem mem' : Mem) : Prop :=
  ∀ x, mem' x = mem x ∨ ∃ o o', mem x = .object o ∧ mem' x = .object o' ∧
    sexpAllocatedBytes types o' = sexpAllocatedBytes types o

/-- The blocks, with the objects that are in memory now. -/
def relabel (mem : Mem) : ℕ → List (Block Obj) → List (Block Obj)
  | _, [] => []
  | a, .free s :: bs => .free s :: relabel mem (a + s) bs
  | a, .used s o :: bs => .used s ((mem.obj? a).getD o) :: relabel mem (a + s) bs

theorem map_size_relabel (a : ℕ) (bs : List (Block Obj)) :
    (relabel mem a bs).map Block.size = bs.map Block.size := by
  induction bs generalizing a with
  | nil => rfl
  | cons b bs ih =>
    cases b with
    | free s => rw [relabel, List.map_cons, List.map_cons, ih]
    | used s o => rw [relabel, List.map_cons, List.map_cons, ih, Block.size, Block.size]

theorem map_isFree_relabel (a : ℕ) (bs : List (Block Obj)) :
    (relabel mem a bs).map Block.isFree = bs.map Block.isFree := by
  induction bs generalizing a with
  | nil => rfl
  | cons b bs ih =>
    cases b with
    | free s => rw [relabel, List.map_cons, List.map_cons, ih]
    | used s o => rw [relabel, List.map_cons, List.map_cons, ih, Block.isFree, Block.isFree]

theorem span_relabel (a : ℕ) (bs : List (Block Obj)) : span (relabel mem a bs) = span bs := by
  rw [span, map_size_relabel, span]

theorem firstFree_relabel (a last : ℕ) (bs : List (Block Obj)) :
    firstFree a (relabel mem a bs) last = firstFree a bs last := by
  induction bs generalizing a with
  | nil => rfl
  | cons b bs ih =>
    cases b with
    | free s => rfl
    | used s o => rw [relabel, firstFree_used, firstFree_used, ih]

theorem apart_relabel (a : ℕ) : Apart (relabel mem a bs) ↔ Apart bs := by
  have hmap : ∀ bs : List (Block Obj), Apart bs ↔
      (bs.map Block.isFree).IsChain fun x y => ¬ (x = true ∧ y = true) := fun bs => by
    rw [Apart, List.isChain_map]
  rw [hmap, map_isFree_relabel, ← hmap]

theorem Mem.Updates.of_not_object (hupd : mem.Updates types mem') (hx : ∀ o, mem x ≠ .object o) :
    mem' x = mem x := by
  rcases hupd x with hsame | ⟨o, -, ho, -⟩
  · exact hsame
  · exact absurd ho (hx o)

theorem Mem.Updates.object (hupd : mem.Updates types mem') (ho : mem x = .object o) :
    ∃ o', mem' x = .object o' ∧ sexpAllocatedBytes types o' = sexpAllocatedBytes types o := by
  rcases hupd x with hsame | ⟨o₁, o', ho₁, ho', hsize⟩
  · exact ⟨o, hsame.trans ho, rfl⟩
  · obtain rfl := Cell.object.inj (ho.symm.trans ho₁)
    exact ⟨o', ho', hsize⟩

variable {o' : Obj}

theorem Mem.Updates.object_back (hupd : mem.Updates types mem') (ho : mem' x = .object o') :
    ∃ o, mem x = .object o ∧ sexpAllocatedBytes types o' = sexpAllocatedBytes types o := by
  rcases hupd x with hsame | ⟨o, o₁, ho₁, ho', hsize⟩
  · exact ⟨o', hsame.symm.trans ho, rfl⟩
  · obtain rfl := Cell.object.inj (ho.symm.trans ho')
    exact ⟨o, ho₁, hsize⟩

theorem rep_relabel (hupd : mem.Updates types mem') (hrep : Rep mem a bs last) :
    Rep mem' a (relabel mem' a bs) last := by
  induction bs generalizing a with
  | nil => trivial
  | cons b bs ih =>
    cases b with
    | free s =>
      refine ⟨?_, ih hrep.2⟩
      rw [hupd.of_not_object (by rw [hrep.1]; simp), hrep.1, firstFree_relabel]
    | used s o =>
      obtain ⟨o', ho', -⟩ := hupd.object hrep.1
      refine ⟨?_, ih hrep.2⟩
      rw [Mem.obj?_eq_some.mpr ho', ho']
      rfl

theorem usedAt_relabel (hrep : Rep mem' a (relabel mem' a bs) last) (hused : UsedAt a bs x o)
    (ho' : mem' x = .object o') : UsedAt a (relabel mem' a bs) x o' := by
  induction bs generalizing a with
  | nil => exact absurd hused not_usedAt_nil
  | cons b bs ih =>
    cases b with
    | free s => exact usedAt_cons_free.mpr (ih hrep.2 (usedAt_cons_free.mp hused))
    | used s o₁ =>
      rcases usedAt_cons_used.mp hused with ⟨rfl, rfl⟩ | hused
      · refine usedAt_cons_used.mpr (.inl ⟨rfl, ?_⟩)
        rw [Mem.obj?_eq_some.mpr ho']
        rfl
      · exact usedAt_cons_used.mpr (.inr (ih hrep.2 hused))

theorem used_relabel {s : ℕ} (hupd : mem.Updates types mem') (hrep : Rep mem a bs last)
    (hmem : .used s o' ∈ relabel mem' a bs) :
    ∃ o, .used s o ∈ bs ∧ sexpAllocatedBytes types o' = sexpAllocatedBytes types o := by
  induction bs generalizing a with
  | nil => simp [relabel] at hmem
  | cons b bs ih =>
    cases b with
    | free s₁ =>
      rcases List.mem_cons.mp hmem with heq | hmem
      · cases heq
      · obtain ⟨o, ho, hsize⟩ := ih hrep.2 hmem
        exact ⟨o, List.mem_cons_of_mem _ ho, hsize⟩
    | used s₁ o₁ =>
      rcases List.mem_cons.mp hmem with heq | hmem
      · obtain ⟨o₂, ho₂, hsize⟩ := hupd.object hrep.1
        obtain ⟨rfl, hobj⟩ := Block.used.inj heq
        rw [Mem.obj?_eq_some.mpr ho₂, Option.getD_some] at hobj
        subst hobj
        exact ⟨o₁, List.mem_cons_self, hsize⟩
      · obtain ⟨o, ho, hsize⟩ := ih hrep.2 hmem
        exact ⟨o, List.mem_cons_of_mem _ ho, hsize⟩

theorem ChunkOk.update (hok : ChunkOk types mem c bs) (hupd : mem.Updates types mem') :
    ChunkOk types mem' c (relabel mem' (c.data + 32) bs) := by
  have hrep := rep_relabel hupd hok.linked.2
  refine ⟨hok.data, by rw [span_relabel]; exact hok.full, ⟨?_, hrep⟩, ?_, ?_, ?_, ?_⟩
  · rw [hupd.of_not_object (by rw [hok.linked.1]; simp), hok.linked.1, firstFree_relabel]
  · intro b hb
    have hsize : b.size ∈ bs.map Block.size := by
      rw [← map_size_relabel (c.data + 32)]
      exact List.mem_map_of_mem hb
    obtain ⟨b', hb', heq⟩ := List.mem_map.mp hsize
    rw [← heq]
    exact hok.sizes b' hb'
  · exact (apart_relabel _).mpr hok.apart
  · intro s o' hmem
    obtain ⟨o, ho, hsize⟩ := used_relabel hupd hok.linked.2 hmem
    rw [hok.used s o ho, hsize]
  · intro x o' hlow hhigh hx
    obtain ⟨o, ho, -⟩ := hupd.object_back hx
    exact usedAt_relabel hrep (hok.objects x o hlow hhigh ho) hx

end ChibiScheme.Gc
