import ChibiScheme.Gc.Collect

/-!
# A collection, and the life of a heap

`sexp_gc` leaves the objects that can be reached from the roots where they are, and a heap
with the properties it had.  `sexp_alloc` collects and grows the heap where it must.

A heap is made by `sexp_bootstrap_context`, and changes by allocations, collections,
growths and assignments to objects, in any order.
-/

namespace ChibiScheme.Gc

open Tiling List Option

variable {types : ℕ → TypeSpec} {h h' : Heap} {roots : List Ref}

/-! ## A collection -/

/-- Not a reference to an object that cannot be reached. -/
def Alive (types : ℕ → TypeSpec) (roots : List Ref) (mem : Mem) (x : Ref) : Prop :=
  ∀ a, x = .ptr a → Live types roots mem a

/-- What a collection keeps. -/
structure Collected (types : ℕ → TypeSpec) (roots : List Ref) (h h' : Heap) (maxFreed : ℕ) : Prop where
  ok : HeapOk types h'
  chunks : h'.chunks = h.chunks
  live : ∀ a o, h.mem a = .object o → Live types roots h.mem a →
    ∃ o', h'.mem a = .object o' ∧ ObjectReset types (Alive types roots h.mem) o o'
  dead : ∀ a o', h'.mem a = .object o' → ∃ o, h.mem a = .object o ∧ Live types roots h.mem a
  max_cases : maxFreed = 0 ∨ ∃ c ∈ h'.chunks, ∃ bs, ChunkOk types h'.mem c bs ∧ .free maxFreed ∈ bs
  max_pos : ∀ a o, h.mem a = .object o → ¬ Live types roots h.mem a → 0 < maxFreed

/-- The memory that is swept: that of the heap, with the objects marked that can be
reached, and with weak references reset. -/
private structure Marked (types : ℕ → TypeSpec) (roots : List Ref) (h : Heap) (mem : Mem) : Prop where
  updates : h.mem.Updates types mem
  object : ∀ a o, h.mem a = .object o → ∃ o', mem a = .object o' ∧
    (o'.marked = true ↔ Live types roots h.mem a) ∧
    (Live types roots h.mem a → ObjectReset types (Alive types roots h.mem) o (clearMark o'))

variable {mem : Mem}

theorem Mem.Updates.trans {mem' mem'' : Mem} (h₁ : mem.Updates types mem')
    (h₂ : mem'.Updates types mem'') : mem.Updates types mem'' := by
  intro x
  rcases h₂ x with hsame | ⟨o', o'', ho', ho'', hsize⟩
  · rw [hsame]
    exact h₁ x
  · obtain ⟨o, ho, hsize'⟩ := h₁.object_back ho'
    exact .inr ⟨o, o'', ho, ho'', hsize.trans hsize'⟩

theorem resetMem_updates (hweak : mem.WeakSound types) :
    mem.Updates types (resetMem types mem) := by
  intro x
  by_cases hobj : ∃ o, mem x = .object o
  · obtain ⟨o, ho⟩ := hobj
    obtain ⟨o', ho', hresets, -⟩ := resetMem_object hweak ho
    exact .inr ⟨o, o', ho, ho', hresets.allocatedBytes⟩
  · exact .inl (resetMem_of_not_object fun o ho => hobj ⟨o, ho⟩)

theorem Mem.Grows.weakSound {mem' : Mem} (hgrows : mem.Grows mem') (hweak : mem.WeakSound types) :
    mem'.WeakSound types := by
  intro a o ho hbase i hi
  obtain ⟨m, hm⟩ := hgrows.object_back ho
  exact hgrows.valid (hweak a _ hm hbase i hi)

variable {o : Obj}

private theorem ObjectReset.clear {alive alive' : Ref → Prop} {o' : Obj} {m : Bool}
    (hreset : ObjectReset types alive { o with marked := m } o') (hunmarked : o.marked = false)
    (halive : ∀ x, alive x ↔ alive' x) : ObjectReset types alive' o (clearMark o') := by
  obtain rfl : alive = alive' := funext fun x => propext (halive x)
  obtain ⟨words, broken, rfl, hwords⟩ := hreset.resets
  refine ⟨⟨words, broken, ?_, hwords⟩, hreset.slot, hreset.extra⟩
  simp only [clearMark]
  rw [← hunmarked]

private theorem objectReset_self {alive : Ref → Prop} (hbase : (types o.tag).weakBase = 0) :
    ObjectReset types alive o o :=
  ⟨Resets.refl o, fun hpos => absurd hpos (by omega), fun hpos => absurd hpos (by omega)⟩

private theorem HeapOk.marked (hok : HeapOk types h) (hroots : ∀ x ∈ roots, x.Valid h.mem) :
    ∃ mem₁ mem₂ broke, roots.foldlM (fun mem x => sexpMark types (sexpHeapTotalSize h.chunks + 1) x mem)
        h.mem = some mem₁ ∧
      sexpResetWeakReferences types h.weakPresent h.chunks mem₁ = some (mem₂, broke) ∧
      Marked types roots h mem₂ := by
  obtain ⟨mem₁, hrun, hgrows, -, hmarks⟩ := hok.mark hroots
  have hweak₁ : mem₁.WeakSound types := hgrows.weakSound hok.weak
  have hsettled : ∀ x : Ref, x.Settled mem₁ ↔ Alive types roots h.mem x := by
    intro x
    exact forall_congr' fun a => imp_congr_right fun _ => hmarks a
  -- an object carries a mark if it can be reached
  have hobject : ∀ a o, h.mem a = .object o → ∃ m, mem₁ a = .object { o with marked := m } ∧
      (m = true ↔ Live types roots h.mem a) := by
    intro a o ho
    obtain ⟨m, hm⟩ := hgrows.object ho
    refine ⟨m, hm, ?_⟩
    rw [← hmarks]
    constructor
    · exact fun hbit => ⟨_, hm, hbit⟩
    · rintro ⟨o', ho', hbit⟩
      obtain rfl := Cell.object.inj (hm.symm.trans ho')
      exact hbit
  have hunmarked : ∀ a o, h.mem a = .object o → o.marked = false := by
    intro a o ho
    cases hbit : o.marked with
    | false => rfl
    | true => exact absurd ⟨o, ho, hbit⟩ (hok.unmarked a)
  cases hpresent : h.weakPresent with
  | false =>
    refine ⟨mem₁, mem₁, 0, hrun, rfl, hgrows.updates, fun a o ho => ?_⟩
    obtain ⟨m, hm, hiff⟩ := hobject a o ho
    refine ⟨_, hm, hiff, fun _ => ?_⟩
    have hself : clearMark { o with marked := m } = o := by
      simp only [clearMark]
      rw [← hunmarked a o ho]
    rw [hself]
    exact objectReset_self (hok.present hpresent a o ho)
  | true =>
    have hchunks₁ : ∀ c ∈ h.chunks, ∃ bs, ChunkOk types mem₁ c bs := by
      intro c hc
      obtain ⟨bs, hchunk⟩ := hok.chunk c hc
      exact ⟨_, hchunk.update hgrows.updates⟩
    have hwithin₁ : ∀ x, mem₁ x ≠ .blank → ∃ c ∈ h.chunks, c.Contains x := by
      intro x hx
      refine hok.within x fun hblank => hx ?_
      rcases hgrows x with hsame | ⟨o, ho, -⟩
      · exact hsame.trans hblank
      · exact Cell.noConfusion (hblank.symm.trans ho)
    obtain ⟨broke, hreset⟩ := sexpResetWeakReferences_spec hweak₁ hchunks₁ hok.disjoint hwithin₁
    refine ⟨mem₁, _, broke, hrun, hreset, hgrows.updates.trans (resetMem_updates hweak₁),
      fun a o ho => ?_⟩
    obtain ⟨m, hm, hiff⟩ := hobject a o ho
    obtain ⟨o', ho', hresets, hdone⟩ := resetMem_object hweak₁ hm
    refine ⟨o', ho', by rw [hresets.marked]; exact hiff, fun hlive => ?_⟩
    exact (hdone (hiff.mpr hlive)).2.clear (hunmarked a o ho) hsettled

/-- What a collection does to the heap. -/
theorem sexpGc_spec (hok : HeapOk types h) (hroots : ∀ x ∈ roots, x.Valid h.mem) :
    ∃ h' maxFreed sumFreed, sexpGc types roots h = some (h', maxFreed, sumFreed) ∧
      h'.weakPresent = h.weakPresent ∧ Collected types roots h h' maxFreed := by
  obtain ⟨mem₁, mem₂, broke, hmark, hreset, hmarked⟩ := hok.marked hroots
  have hchunks₂ : ∀ c ∈ h.chunks, ∃ bs, ChunkOk types mem₂ c bs := by
    intro c hc
    obtain ⟨bs, hchunk⟩ := hok.chunk c hc
    exact ⟨_, hchunk.update hmarked.updates⟩
  obtain ⟨s, hsweep, hswept⟩ := sexpSweep_spec h.chunks ⟨mem₂, 0, 0⟩ hchunks₂ hok.disjoint
  have hlive : ∀ a o, h.mem a = .object o → Live types roots h.mem a →
      ∃ o', s.mem a = .object o' ∧ ObjectReset types (Alive types roots h.mem) o o' := by
    intro a o ho hlive
    obtain ⟨o₂, ho₂, hiff, hdone⟩ := hmarked.object a o ho
    obtain ⟨c, hc, ha⟩ := hok.within a (by rw [ho]; simp)
    exact ⟨clearMark o₂, (hswept.kept c hc a ha _).mpr ⟨o₂, ho₂, hiff.mpr hlive, rfl⟩, hdone hlive⟩
  have hback : ∀ a o', s.mem a = .object o' → ∃ o, h.mem a = .object o ∧ Live types roots h.mem a ∧
      o'.marked = false := by
    intro a o' ho'
    by_cases hin : ∃ c ∈ h.chunks, c.Contains a
    · obtain ⟨c, hc, ha⟩ := hin
      obtain ⟨o₂, ho₂, hbit, rfl⟩ := (hswept.kept c hc a ha o').mp ho'
      obtain ⟨o, ho, -⟩ := hmarked.updates.object_back ho₂
      obtain ⟨o₃, ho₃, hiff, -⟩ := hmarked.object a o ho
      obtain rfl := Cell.object.inj (ho₂.symm.trans ho₃)
      exact ⟨o, ho, hiff.mp hbit, rfl⟩
    · have hsame : s.mem a = mem₂ a := hswept.frame a fun c hc ha => hin ⟨c, hc, ha⟩
      obtain ⟨o, ho, -⟩ := hmarked.updates.object_back (hsame.symm.trans ho')
      exact absurd (hok.within a (by rw [ho]; simp)) hin
  have halive : ∀ x : Ref, x.Valid h.mem → Alive types roots h.mem x → x.Valid s.mem := by
    intro x hvalid hx a ha
    obtain ⟨o, ho⟩ := hvalid a ha
    obtain ⟨o', ho', -⟩ := hlive a o ho (hx a ha)
    exact ⟨o', ho'⟩
  -- what an object of the swept heap was
  have horigin : ∀ a o', s.mem a = .object o' → ∃ o, h.mem a = .object o ∧
      Live types roots h.mem a ∧ ObjectReset types (Alive types roots h.mem) o o' := by
    intro a o' ho'
    obtain ⟨o, ho, hreach, -⟩ := hback a o' ho'
    obtain ⟨o₁, ho₁, hdone⟩ := hlive a o ho hreach
    obtain rfl := Cell.object.inj (ho'.symm.trans ho₁)
    exact ⟨o, ho, hreach, hdone⟩
  refine ⟨{ h with mem := s.mem }, s.maxFreed, s.sumFreed, ?_, rfl, ?_, rfl, hlive, ?_, ?_, ?_⟩
  · simp only [sexpGc, hmark, hreset, hsweep, bind_eq_bind, bind_some]
  · refine ⟨hswept.chunk, hok.disjoint, ?_, hok.nonempty, ?_, ?_, ?_, ?_⟩
    · intro x hx
      by_contra hout
      have hsame : s.mem x = mem₂ x := hswept.frame x fun c hc hcx => hout ⟨c, hc, hcx⟩
      have hblank : h.mem x = .blank := by
        by_contra hne
        exact hout (hok.within x hne)
      rw [hmarked.updates.of_not_object (by rw [hblank]; simp), hblank] at hsame
      exact hx hsame
    · intro a o' ho' x hx b hb
      subst hb
      obtain ⟨o, ho, hreach, hdone⟩ := horigin a o' ho'
      have hstrong := hdone.resets.strongRefs hx
      refine halive (.ptr b) (hok.sound a o ho _ hstrong) (fun c hc => ?_) b rfl
      obtain rfl := Ref.ptr.inj hc
      obtain ⟨r, hr, hpath⟩ := hreach
      exact ⟨r, hr, hpath.tail ⟨o, ho, hstrong⟩⟩
    · intro a o' ho' hbase i hi
      obtain ⟨o, ho, -, hdone⟩ := horigin a o' ho'
      rw [hdone.resets.tag] at hbase
      rw [hdone.resets.numWeakSlots] at hi
      rcases hdone.slot hbase i hi with ⟨hlive', heq⟩ | ⟨-, heq⟩
      · rw [heq]
        exact halive _ (hok.weak a o ho hbase i hi) hlive'
      · rw [heq]
        exact Ref.valid_imm _ _
    · intro habsent a o' ho'
      obtain ⟨o, ho, -, hdone⟩ := horigin a o' ho'
      rw [hdone.resets.tag]
      exact hok.present habsent a o ho
    · rintro a ⟨o', ho', hbit⟩
      obtain ⟨-, -, -, hunmarked⟩ := hback a o' ho'
      rw [hunmarked] at hbit
      cases hbit
  · intro a o' ho'
    obtain ⟨o, ho, hreach, -⟩ := hback a o' ho'
    exact ⟨o, ho, hreach⟩
  · exact hswept.max_cases
  · intro a o ho hdead
    obtain ⟨o₂, ho₂, hiff, -⟩ := hmarked.object a o ho
    obtain ⟨c, hc, ha⟩ := hok.within a (by rw [ho]; simp)
    refine hswept.max_pos c hc a o₂ ha ho₂ ?_
    cases hbit : o₂.marked with
    | false => rfl
    | true => exact absurd (hiff.mp hbit) hdead

/-! ## An allocation -/

/-- What a new object leaves of a heap. -/
structure Allocated (types : ℕ → TypeSpec) (roots : List Ref) (shape : Shape) (h h' : Heap)
    (res : Option ℕ) : Prop where
  ok : HeapOk types h'
  live : ∀ a o, h.mem a = .object o → Live types roots h.mem a →
    ∃ o', h'.mem a = .object o' ∧ Resets o o'
  new : ∀ addr, res = some addr → h'.mem addr = .object (shape.object types)
  disjoint : ∀ addr, res = some addr → ∀ a o, h.mem a = .object o → Live types roots h.mem a →
    a + sexpHeapAlign (sexpAllocatedBytes types o) ≤ addr ∨
      addr + sexpHeapAlign (sexpAllocatedBytes types (shape.object types)) ≤ a

theorem sexpTryAlloc_of_free {size maxFreed : ℕ} (hok : HeapOk types h) (hsize : 0 < size)
    (hle : size ≤ maxFreed)
    (hfree : ∃ c ∈ h.chunks, ∃ bs, ChunkOk types h.mem c bs ∧ .free maxFreed ∈ bs) :
    ∃ addr mem', sexpTryAlloc size h.chunks h.mem = some (some (addr, mem')) := by
  rcases sexpTryAlloc_spec hsize h.chunks hok.chunk with ⟨addr, mem', hrun, -⟩ | ⟨-, hfull⟩
  · exact ⟨addr, mem', hrun⟩
  · obtain ⟨c, hc, bs, hchunk, hmem⟩ := hfree
    have hlt := hfull c hc bs hchunk maxFreed hmem
    omega

section Alloc

variable {shape : Shape} {malloc : Malloc}

/-- The size that `sexp_alloc` looks for. -/
def Shape.alignedSize (types : ℕ → TypeSpec) (shape : Shape) : ℕ :=
  sexpHeapAlign (sexpAllocatedBytes types (shape.object types))

theorem Shape.alignedSize_pos (hbase : ∀ tag, 0 < (types tag).sizeBase) (shape : Shape) :
    0 < shape.alignedSize types := by
  have hbytes : 0 < sexpAllocatedBytes types (shape.object types) :=
    Nat.add_pos_right _ (hbase _)
  exact hbytes.trans_le (le_sexpHeapAlign _).1

private theorem allocated_of_found {h₁ : Heap} {addr : ℕ} {mem' : Mem}
    (hbase : ∀ tag, 0 < (types tag).sizeBase) (hok : HeapOk types h₁)
    (hfound : Found types h₁.mem h₁.chunks (shape.alignedSize types) addr mem')
    (hlive : ∀ a o, h.mem a = .object o → Live types roots h.mem a →
      ∃ o', h₁.mem a = .object o' ∧ Resets o o') :
    Allocated types roots shape h ⟨h₁.chunks, mem'.set addr (.object (shape.object types)),
      h₁.weakPresent || (types shape.tag).weakBase > 0⟩ (some addr) := by
  have hpos := shape.alignedSize_pos hbase
  refine ⟨hok.alloc hpos rfl hfound, fun a o ho hreach => ?_, fun addr' heq => ?_,
    fun addr' heq a o ho hreach => ?_⟩
  · obtain ⟨o', ho', hresets⟩ := hlive a o ho hreach
    exact ⟨o', (hfound.frame hok hpos (shape.object types) ho').1, hresets⟩
  · obtain rfl := some.inj heq
    exact Mem.set_self _ _ _
  · obtain rfl := some.inj heq
    obtain ⟨o', ho', hresets⟩ := hlive a o ho hreach
    rw [← hresets.allocatedBytes]
    exact (hfound.frame hok hpos (shape.object types) ho').2

/-- What an allocation does, its collection included. -/
theorem sexpAllocTagged_spec (hbase : ∀ tag, 0 < (types tag).sizeBase) (hok : HeapOk types h)
    (hroots : ∀ x ∈ roots, x.Valid h.mem)
    (hfresh : GrowFresh h.chunks (shape.alignedSize types) malloc) :
    ∃ res h', sexpAllocTagged types roots malloc shape h = some (res, h') ∧
      Allocated types roots shape h h' res := by
  have hpos := shape.alignedSize_pos hbase
  unfold sexpAllocTagged sexpAlloc
  simp only [bind_eq_bind]
  rw [← Shape.alignedSize]
  rcases sexpTryAlloc_spec hpos h.chunks hok.chunk with ⟨addr, mem', hrun, hfound⟩ | ⟨hrun, -⟩
  · rw [hrun]
    have hallocated := allocated_of_found hbase hok hfound
      (fun a o ho (_ : Live types roots h.mem a) => ⟨o, ho, Resets.refl o⟩)
    exact ⟨some addr, _, rfl, hallocated⟩
  · obtain ⟨h₁, maxFreed, sumFreed, hgc, -, hcollected⟩ := sexpGc_spec hok hroots
    rw [hrun, bind_some]
    simp only [hgc, bind_some]
    -- the heap that is searched again
    set h₂ := if needsGrowth h₁.chunks (shape.alignedSize types) maxFreed sumFreed then
      sexpGrowHeap (shape.alignedSize types) malloc h₁ else h₁ with hh₂
    have hgrown : HeapOk types h₂ ∧ ∀ x o, h₂.mem x = .object o ↔ h₁.mem x = .object o := by
      rw [hh₂]
      split_ifs
      · exact sexpGrowHeap_spec hcollected.ok (hcollected.chunks ▸ hfresh)
      · exact ⟨hcollected.ok, fun _ _ => Iff.rfl⟩
    obtain ⟨hok₂, hsame⟩ := hgrown
    have hlive : ∀ a o, h.mem a = .object o → Live types roots h.mem a →
        ∃ o', h₂.mem a = .object o' ∧ Resets o o' := by
      intro a o ho hreach
      obtain ⟨o', ho', hreset⟩ := hcollected.live a o ho hreach
      exact ⟨o', (hsame a o').mpr ho', hreset.resets⟩
    rcases sexpTryAlloc_spec hpos h₂.chunks hok₂.chunk with ⟨addr, mem', hrun₂, hfound⟩ | ⟨hrun₂, -⟩
    · rw [hrun₂]
      have hallocated := allocated_of_found hbase hok₂ hfound hlive
      exact ⟨some addr, _, rfl, hallocated⟩
    · rw [hrun₂]
      exact ⟨none, h₂, rfl, hok₂, hlive, by simp, by simp⟩

end Alloc

/-! ## The free list -/

/-- The blocks that the links lead to, with their sizes. -/
def freeList (mem : Mem) : ℕ → ℕ → Option (List (ℕ × ℕ))
  | 0, _ => none
  | fuel + 1, a =>
    if a = 0 then some []
    else
      match mem a with
      | .free size next => (freeList mem fuel next).map ((a, size) :: ·)
      | _ => none

/-- The free blocks of a chunk, by address and size. -/
def freeBlocks : ℕ → List (Block Obj) → List (ℕ × ℕ)
  | _, [] => []
  | a, .free s :: bs => (a, s) :: freeBlocks (a + s) bs
  | a, .used s _ :: bs => freeBlocks (a + s) bs

variable {bs : List (Block Obj)} {a : ℕ}

theorem freeList_eq (fuel : ℕ) (ha : 0 < a) (hrep : Rep mem a bs 0) (hfuel : bs.length < fuel) :
    freeList mem fuel (firstFree a bs 0) = some (freeBlocks a bs) := by
  induction bs generalizing a fuel with
  | nil =>
    obtain ⟨fuel, rfl⟩ := Nat.exists_eq_succ_of_ne_zero (show fuel ≠ 0 by omega)
    rfl
  | cons b bs ih =>
    rw [length_cons] at hfuel
    cases b with
    | free s =>
      obtain ⟨fuel, rfl⟩ := Nat.exists_eq_succ_of_ne_zero (show fuel ≠ 0 by omega)
      rw [firstFree_free, freeList, if_neg (by omega), hrep.1]
      simp only
      rw [ih fuel (by omega) hrep.2 (by omega)]
      rfl
    | used s o => exact ih fuel (by omega) hrep.2 (by omega)

theorem le_of_mem_freeBlocks {x : ℕ × ℕ} (hx : x ∈ freeBlocks a bs) : a ≤ x.1 ∧ .free x.2 ∈ bs := by
  induction bs generalizing a with
  | nil => simp [freeBlocks] at hx
  | cons b bs ih =>
    cases b with
    | free s =>
      rcases mem_cons.mp hx with rfl | hx
      · exact ⟨le_rfl, mem_cons_self⟩
      · obtain ⟨hle, hmem⟩ := ih hx
        exact ⟨by omega, mem_cons_of_mem _ hmem⟩
    | used s o =>
      obtain ⟨hle, hmem⟩ := ih hx
      exact ⟨by omega, mem_cons_of_mem _ hmem⟩

theorem freeBlocks_sorted (hpos : Positive bs) :
    (freeBlocks a bs).Pairwise fun x y => x.1 < y.1 := by
  induction bs generalizing a with
  | nil => exact List.Pairwise.nil
  | cons b bs ih =>
    obtain ⟨hb, hpos'⟩ := hpos.cons
    cases b with
    | free s =>
      refine pairwise_cons.mpr ⟨fun x hx => ?_, ih hpos'⟩
      have hle := (le_of_mem_freeBlocks hx).1
      simp only [Block.size] at hb
      omega
    | used s o => exact ih hpos'

/-- The free list is the free blocks in order. -/
structure FreeListOk (mem : Mem) (c : Chunk) (bs : List (Block Obj)) (ls : List (ℕ × ℕ)) : Prop where
  walk : freeList mem (c.size + 2) c.data = some ((c.data, 0) :: ls)
  blocks : ls = freeBlocks c.firstBlock bs
  sorted : ls.Pairwise fun x y => x.1 < y.1
  large : ∀ x ∈ ls, 32 ≤ x.2

theorem ChunkOk.freeList {c : Chunk} (hok : ChunkOk types mem c bs) :
    ∃ ls, FreeListOk mem c bs ls := by
  have hdata := hok.bounds.1
  refine ⟨freeBlocks c.firstBlock bs, ?_, rfl, freeBlocks_sorted hok.positive, fun x hx => ?_⟩
  · rw [Gc.freeList, if_neg (by omega), hok.linked.1]
    simp only
    rw [freeList_eq (c.size + 1) (by omega) hok.linked.2 hok.length_lt]
    rfl
  · obtain ⟨hpos, hdvd⟩ := hok.sizes _ (le_of_mem_freeBlocks hx).2
    exact Nat.le_of_dvd hpos hdvd

/-! ## The life of a heap -/

/-- An object may be replaced by this one: it has the size of the other and refers to
objects. -/
structure Assignable (types : ℕ → TypeSpec) (h : Heap) (addr : ℕ) (o : Obj) : Prop where
  old : ∃ o₀, h.mem addr = .object o₀ ∧ sexpAllocatedBytes types o = sexpAllocatedBytes types o₀
  unmarked : o.marked = false
  strong : ∀ x ∈ o.strongRefs types, x.Valid h.mem
  weak : 0 < (types o.tag).weakBase → ∀ i < o.numWeakSlots types, (o.weakSlot types i).Valid h.mem
  present : h.weakPresent = false → (types o.tag).weakBase = 0

/-- What happens to a heap. -/
inductive Step (types : ℕ → TypeSpec) (h : Heap) : Heap → Prop
  | alloc (roots : List Ref) (malloc : Malloc) (shape : Shape) (res : Option ℕ) (h' : Heap)
      (hroots : ∀ x ∈ roots, x.Valid h.mem)
      (hsizes : SizesExact h.chunks (shape.alignedSize types))
      (hfresh : GrowFresh h.chunks (shape.alignedSize types) malloc)
      (hrun : sexpAllocTagged types roots malloc shape h = some (res, h')) : Step types h h'
  | collect (roots : List Ref) (h' : Heap) (maxFreed sumFreed : ℕ) (hroots : ∀ x ∈ roots, x.Valid h.mem)
      (hrun : sexpGc types roots h = some (h', maxFreed, sumFreed)) : Step types h h'
  | grow (size : ℕ) (malloc : Malloc) (hsizes : SizesExact h.chunks size) (hfresh : GrowFresh h.chunks size malloc) :
      Step types h (sexpGrowHeap size malloc h)
  | assign (addr : ℕ) (o : Obj) (hassign : Assignable types h addr o) :
      Step types h { h with mem := h.mem.set addr (.object o) }

/-- The heaps that come from a new one. -/
def Reachable (types : ℕ → TypeSpec) (h : Heap) : Prop :=
  ∃ size maxSize base, Relation.ReflTransGen (Step types) (sexpBootstrapHeap size maxSize base) h

theorem HeapOk.assign {addr : ℕ} (hok : HeapOk types h) (hassign : Assignable types h addr o) :
    HeapOk types { h with mem := h.mem.set addr (.object o) } := by
  obtain ⟨o₀, ho₀, hsize⟩ := hassign.old
  have hupdates : h.mem.Updates types (h.mem.set addr (.object o)) := by
    intro x
    by_cases hx : x = addr
    · subst hx
      exact .inr ⟨o₀, o, ho₀, Mem.set_self _ _ _, hsize⟩
    · exact .inl (Mem.set_of_ne hx _ _)
  have hvalid : ∀ x : Ref, x.Valid h.mem → x.Valid (h.mem.set addr (.object o)) := by
    intro x hx a ha
    obtain ⟨o₁, ho₁⟩ := hx a ha
    obtain ⟨o₂, ho₂, -⟩ := hupdates.object ho₁
    exact ⟨o₂, ho₂⟩
  have hobject : ∀ a o₁, (h.mem.set addr (.object o)) a = .object o₁ →
      o₁ = o ∨ h.mem a = .object o₁ := by
    intro a o₁ ho₁
    by_cases ha : a = addr
    · subst ha
      rw [Mem.set_self] at ho₁
      exact .inl (Cell.object.inj ho₁).symm
    · rw [Mem.set_of_ne ha] at ho₁
      exact .inr ho₁
  refine ⟨?_, hok.disjoint, ?_, hok.nonempty, ?_, ?_, ?_, ?_⟩
  · intro c hc
    obtain ⟨bs, hchunk⟩ := hok.chunk c hc
    exact ⟨_, hchunk.update hupdates⟩
  · intro x hx
    refine hok.within x fun hblank => hx ?_
    exact (hupdates.of_not_object (by rw [hblank]; simp)).trans hblank
  · intro a o₁ ho₁ x hx
    rcases hobject a o₁ ho₁ with rfl | ho₁
    · exact hvalid x (hassign.strong x hx)
    · exact hvalid x (hok.sound a o₁ ho₁ x hx)
  · intro a o₁ ho₁ hbase i hi
    rcases hobject a o₁ ho₁ with rfl | ho₁
    · exact hvalid _ (hassign.weak hbase i hi)
    · exact hvalid _ (hok.weak a o₁ ho₁ hbase i hi)
  · intro habsent a o₁ ho₁
    rcases hobject a o₁ ho₁ with rfl | ho₁
    · exact hassign.present habsent
    · exact hok.present habsent a o₁ ho₁
  · rintro a ⟨o₁, ho₁, hbit⟩
    rcases hobject a o₁ ho₁ with rfl | ho₁
    · rw [hassign.unmarked] at hbit
      cases hbit
    · exact hok.unmarked a ⟨o₁, ho₁, hbit⟩

theorem HeapOk.allocTagged {res : Option ℕ} (hbase : ∀ tag, 0 < (types tag).sizeBase)
    (hok : HeapOk types h) (hroots : ∀ x ∈ roots, x.Valid h.mem)
    (hfresh : GrowFresh h.chunks (shape.alignedSize types) malloc)
    (hrun : sexpAllocTagged types roots malloc shape h = some (res, h')) : HeapOk types h' := by
  obtain ⟨res', h'', hrun', hallocated⟩ := sexpAllocTagged_spec hbase hok hroots hfresh
  obtain ⟨-, rfl⟩ := Prod.mk.inj (some.inj (hrun.symm.trans hrun'))
  exact hallocated.ok

theorem HeapOk.step (hbase : ∀ tag, 0 < (types tag).sizeBase) (hok : HeapOk types h)
    (hstep : Step types h h') : HeapOk types h' := by
  cases hstep with
  | alloc roots malloc shape res h' hroots hsizes hfresh hrun =>
    exact hok.allocTagged hbase hroots hfresh hrun
  | collect roots h' maxFreed sumFreed hroots hrun =>
    obtain ⟨h'', m, s, hrun', -, hcollected⟩ := sexpGc_spec hok hroots
    obtain ⟨rfl, -⟩ := Prod.mk.inj (some.inj (hrun.symm.trans hrun'))
    exact hcollected.ok
  | grow size malloc hsizes hfresh => exact (sexpGrowHeap_spec hok hfresh).1
  | assign addr o hassign => exact hok.assign hassign

theorem Reachable.ok (hbase : ∀ tag, 0 < (types tag).sizeBase) (hreach : Reachable types h) :
    HeapOk types h := by
  obtain ⟨size, maxSize, base, hsteps⟩ := hreach
  induction hsteps with
  | refl => exact sexpBootstrapHeap_ok size maxSize base
  | tail _ hstep ih => exact ih.step hbase hstep

/-- In every heap that comes from a new one by allocations, collections, growths and
assignments within the address space, chunks are filled by their blocks and free lists are in order; whatever comes
next, what can be reached stays where it is, outside of the block that is returned, and
once something was freed, what is at most `max_freed` can be allocated. -/
theorem heap_stays_tiled (types : ℕ → TypeSpec) (hbase : ∀ tag, 0 < (types tag).sizeBase) (h : Heap)
    (hreach : Reachable types h) :
    (∀ c ∈ h.chunks, ∃ bs ls, ChunkOk types h.mem c bs ∧ FreeListOk h.mem c bs ls) ∧
    h.chunks.Pairwise Chunk.Apart ∧
    (∀ a o, h.mem a = .object o → ∃ c ∈ h.chunks, c.Contains a) ∧
    (∀ roots malloc shape, (∀ x ∈ roots, x.Valid h.mem) →
      SizesExact h.chunks (shape.alignedSize types) →
      GrowFresh h.chunks (shape.alignedSize types) malloc →
        ∃ res h', sexpAllocTagged types roots malloc shape h = some (res, h') ∧
          Allocated types roots shape h h' res) ∧
    (∀ roots : List Ref, (∀ x ∈ roots, x.Valid h.mem) →
      ∃ h' maxFreed sumFreed, sexpGc types roots h = some (h', maxFreed, sumFreed) ∧
        Collected types roots h h' maxFreed ∧
        ((∃ a o, h.mem a = .object o ∧ ¬ Live types roots h.mem a) →
          ∃ c ∈ h'.chunks, ∃ bs, ChunkOk types h'.mem c bs ∧ .free maxFreed ∈ bs) ∧
        ∀ size, 0 < size → size ≤ maxFreed →
          ∃ addr mem', sexpTryAlloc size h'.chunks h'.mem = some (some (addr, mem'))) ∧
    ∀ size malloc, SizesExact h.chunks size → GrowFresh h.chunks size malloc →
      HeapOk types (sexpGrowHeap size malloc h) ∧
        ∀ x o, (sexpGrowHeap size malloc h).mem x = .object o ↔ h.mem x = .object o := by
  have hok := hreach.ok hbase
  refine ⟨fun c hc => ?_, hok.disjoint, fun a o ho => hok.within a (by rw [ho]; simp), ?_, ?_, ?_⟩
  · obtain ⟨bs, hchunk⟩ := hok.chunk c hc
    obtain ⟨ls, hls⟩ := hchunk.freeList
    exact ⟨bs, ls, hchunk, hls⟩
  · exact fun roots malloc shape hroots _ hfresh => sexpAllocTagged_spec hbase hok hroots hfresh
  · intro roots hroots
    obtain ⟨h', maxFreed, sumFreed, hrun, -, hcollected⟩ := sexpGc_spec hok hroots
    refine ⟨h', maxFreed, sumFreed, hrun, hcollected, ?_, fun size hsize hle => ?_⟩
    · rintro ⟨a, o, ho, hdead⟩
      have hpos := hcollected.max_pos a o ho hdead
      exact hcollected.max_cases.resolve_left hpos.ne'
    · exact sexpTryAlloc_of_free hcollected.ok hsize hle
        (hcollected.max_cases.resolve_left (by omega))
  · exact fun size malloc _ hfresh => sexpGrowHeap_spec hok hfresh

/-- A pair is allocated in a new heap, and freed by the next collection. -/
theorem heap_stays_tiled_pair :
    ∃ h addr o, Reachable (fun _ => sexpPairType) h ∧ h.mem addr = .object o ∧
      ∃ h' maxFreed sumFreed, sexpGc (fun _ => sexpPairType) [] h = some (h', maxFreed, sumFreed) ∧
        ∃ c ∈ h'.chunks, ∃ bs, ChunkOk (fun _ => sexpPairType) h'.mem c bs ∧ .free maxFreed ∈ bs := by
  have hbase : ∀ tag : ℕ, 0 < ((fun _ => sexpPairType) tag : TypeSpec).sizeBase := by
    intro tag
    show 0 < sexpPairType.sizeBase
    decide
  have hroots : ∀ x ∈ ([] : List Ref), x.Valid (sexpBootstrapHeap 0 0 16).mem := by simp
  have hfresh : GrowFresh (sexpBootstrapHeap 0 0 16).chunks
      (Shape.alignedSize (fun _ => sexpPairType) ⟨6, 0, 0, 0⟩) none := fun base heq => by cases heq
  have hsizes : SizesExact (sexpBootstrapHeap 0 0 16).chunks
      (Shape.alignedSize (fun _ => sexpPairType) ⟨6, 0, 0, 0⟩) := ⟨by decide, by decide⟩
  obtain ⟨h, hrun⟩ : ∃ h, sexpAllocTagged (fun _ => sexpPairType) [] none ⟨6, 0, 0, 0⟩
      (sexpBootstrapHeap 0 0 16) = some (some 96, h) := ⟨_, rfl⟩
  obtain ⟨res, h', hrun', hallocated⟩ := sexpAllocTagged_spec hbase (sexpBootstrapHeap_ok 0 0 16)
    hroots hfresh
  obtain ⟨hres, rfl⟩ := Prod.mk.inj (some.inj (hrun.symm.trans hrun'))
  have hreach : Reachable (fun _ => sexpPairType) h :=
    ⟨0, 0, 16, .single (.alloc [] none ⟨6, 0, 0, 0⟩ (some 96) h hroots hsizes hfresh hrun)⟩
  have hnew := hallocated.new 96 hres.symm
  obtain ⟨-, -, -, -, hcollect, -⟩ := heap_stays_tiled (fun _ => sexpPairType) hbase h hreach
  obtain ⟨h', m, s, hgc, -, hfreed, -⟩ := hcollect [] (by simp)
  exact ⟨h, 96, _, hreach, hnew, h', m, s, hgc, hfreed ⟨96, _, hnew, fun ⟨b, hb, _⟩ => by simp at hb⟩⟩

/-- Where nothing is freed, `max_freed` is zero, and no block has that size. -/
theorem maxFreed_of_nothing :
    ¬ ∀ h, Reachable (fun _ => sexpPairType) h → ∀ h' maxFreed sumFreed,
      sexpGc (fun _ => sexpPairType) [] h = some (h', maxFreed, sumFreed) →
        ∃ c ∈ h'.chunks, ∃ bs, ChunkOk (fun _ => sexpPairType) h'.mem c bs ∧ .free maxFreed ∈ bs := by
  intro hall
  have hreach : Reachable (fun _ => sexpPairType) (sexpBootstrapHeap 0 0 16) := ⟨0, 0, 16, .refl⟩
  obtain ⟨h', hrun⟩ : ∃ h', sexpGc (fun _ => sexpPairType) [] (sexpBootstrapHeap 0 0 16) =
      some (h', 0, 0) := ⟨_, rfl⟩
  obtain ⟨c, -, bs, hchunk, hmem⟩ := hall _ hreach h' 0 0 hrun
  exact absurd (hchunk.sizes _ hmem).1 (by simp [Block.size])

end ChibiScheme.Gc
