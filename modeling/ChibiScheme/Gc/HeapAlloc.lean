import ChibiScheme.Gc.Layout

/-!
# Allocating in a heap and growing it

`sexp_try_alloc` goes through the chunks; the object that is put into the block it
returns leaves a heap with the same properties.  So does another chunk.
-/

namespace ChibiScheme.Gc

open Tiling List

variable {types : ℕ → TypeSpec} {mem mem' : Mem} {c : Chunk} {bs : List (Block Obj)} {h : Heap}
  {size addr : ℕ}

/-- `sexp_try_alloc` found a block in one of the chunks. -/
def Found (types : ℕ → TypeSpec) (mem : Mem) (chunks : List Chunk) (size addr : ℕ) (mem' : Mem) :
    Prop :=
  ∃ c ∈ chunks, ∃ bs before s after, ChunkOk types mem c bs ∧
    Taken mem c.data size bs addr mem' before s after

/-- Every free block is too small. -/
def Full (types : ℕ → TypeSpec) (mem : Mem) (chunks : List Chunk) (size : ℕ) : Prop :=
  ∀ c ∈ chunks, ∀ bs, ChunkOk types mem c bs → ∀ s, .free s ∈ bs → s < size

variable {s : ℕ} {before after : List (Block Obj)}

private theorem tryAllocChunk (hok : ChunkOk types mem c bs) (hsize : 0 < size) :
    (∃ addr mem' b s a, tryAllocList size (c.size + 1) c.data (firstFree (c.data + 32) bs 0) mem =
        some (some (addr, mem')) ∧ Taken mem c.data size bs addr mem' b s a) ∨
    tryAllocList size (c.size + 1) c.data (firstFree (c.data + 32) bs 0) mem = some none ∧
      ∀ s, .free s ∈ bs → s < size := by
  refine tryAllocList_spec (c.size + 1) hsize hok.positive hok.linked ?_
  have hlen := length_le_span hok.positive
  rw [hok.full]
  omega

/-- Some chunk has a block, or none has. -/
theorem sexpTryAlloc_spec (hsize : 0 < size) (chunks : List Chunk)
    (hchunks : ∀ c ∈ chunks, ∃ bs, ChunkOk types mem c bs) :
    (∃ addr mem', sexpTryAlloc size chunks mem = some (some (addr, mem')) ∧
      Found types mem chunks size addr mem') ∨
    sexpTryAlloc size chunks mem = some none ∧ Full types mem chunks size := by
  induction chunks with
  | nil => exact .inr ⟨rfl, by simp [Full]⟩
  | cons c chunks ih =>
    obtain ⟨bs, hok⟩ := hchunks c mem_cons_self
    rw [sexpTryAlloc, hok.linked.1]
    simp only [Option.bind_eq_bind]
    rcases tryAllocChunk hok hsize with ⟨addr, mem', b, s, a, hrun, htaken⟩ | ⟨hrun, -⟩
    · refine .inl ⟨addr, mem', by rw [hrun]; rfl, ?_⟩
      exact ⟨c, mem_cons_self, bs, b, s, a, hok, htaken⟩
    · rw [hrun, Option.bind_some]
      rcases ih (fun c hc => hchunks c (mem_cons_of_mem _ hc)) with
        ⟨addr, mem', hnext, c', hc', hfound⟩ | ⟨hnext, hfull⟩
      · exact .inl ⟨addr, mem', hnext, c', mem_cons_of_mem _ hc', hfound⟩
      refine .inr ⟨hnext, fun c' hc' bs' hok' s hs => ?_⟩
      rcases mem_cons.mp hc' with rfl | hc'
      · -- any other layout of this chunk is walked in the same way
        have hfirst : firstFree (c'.data + 32) bs' 0 = firstFree (c'.data + 32) bs 0 := by
          have hcell := hok'.linked.1.symm.trans hok.linked.1
          exact (Cell.free.inj hcell).2
        rcases tryAllocChunk hok' hsize with ⟨_, _, _, _, _, hrun', -⟩ | ⟨-, hsmall⟩
        · rw [hfirst, hrun] at hrun'
          simp at hrun'
        · exact hsmall s hs
      · exact hfull c' hc' bs' hok' s hs

/-! ## The block that was taken -/

theorem Taken.bounds {d : ℕ} (htaken : Taken mem d size bs addr mem' before s after) :
    d + 32 ≤ addr ∧ addr + size ≤ d + 32 + span bs := by
  have hplace := htaken.place
  have hlarge := htaken.large
  rw [htaken.blocks]
  simp only [span_append, span_cons, Block.size]
  omega

variable {x : ℕ} {o : Obj}

theorem Taken.disjoint {d : ℕ} (htaken : Taken mem d size bs addr mem' before s after)
    (hused : UsedAt (d + 32) bs x o) :
    ∃ size', .used size' o ∈ bs ∧ (x + size' ≤ addr ∨ addr + size ≤ x) := by
  have hplace := htaken.place
  have hlarge := htaken.large
  have hblocks := htaken.blocks
  subst hblocks
  rw [usedAt_append, usedAt_cons_free] at hused
  rcases hused with hused | hused
  · obtain ⟨size', hmem, -, hend⟩ := usedAt_bounds hused
    exact ⟨size', by simp [hmem], .inl (by omega)⟩
  · obtain ⟨size', hmem, hstart, -⟩ := usedAt_bounds hused
    exact ⟨size', by simp [hmem], .inr (by omega)⟩

theorem ChunkOk.taken (hok : ChunkOk types mem c bs)
    (htaken : Taken mem c.data size bs addr mem' before s after) (hsize : 0 < size)
    (ho : size = sexpHeapAlign (sexpAllocatedBytes types o)) :
    ChunkOk types (mem'.set addr (.object o)) c (before ++ (carve 32 size s o ++ after)) := by
  have hblocks := htaken.blocks
  have hplace := htaken.place
  have hlarge := htaken.large
  subst hblocks
  have hs := hok.sizes (.free s) (by simp)
  simp only [Block.size] at hs
  have hdvd : 32 ∣ size := ho ▸ dvd_sexpHeapAlign _
  -- a rest is at least 32 bytes, since all sizes are multiples of it
  have hcarve : carve 32 size s o = [.used size o, .free (s - size)] ∧ size + 32 ≤ s ∨
      carve 32 size s o = [.used size o] ∧ s = size := by
    unfold carve
    by_cases hle : size + 32 ≤ s
    · exact .inl ⟨if_pos hle, hle⟩
    · obtain rfl : s = size := by omega
      exact .inr ⟨if_neg hle, rfl⟩
  refine ⟨hok.data, ?_, htaken.linked o, ?_, Apart.carve hok.apart, ?_, ?_⟩
  · rw [hok.full]
    simp only [span_append, span_carve, span_cons, Block.size]
  · intro b hb
    rcases mem_append.mp hb with hb | hb
    · exact hok.sizes b (by simp [hb])
    rcases mem_append.mp hb with hb | hb
    · rcases hcarve with ⟨heq, hle⟩ | ⟨heq, -⟩
      · rw [heq] at hb
        simp only [mem_cons, not_mem_nil, or_false] at hb
        rcases hb with rfl | rfl
        · exact ⟨hsize, hdvd⟩
        · exact ⟨by simp only [Block.size]; omega, (Nat.dvd_sub hs.2 hdvd)⟩
      · rw [heq, mem_singleton] at hb
        subst hb
        exact ⟨hsize, hdvd⟩
    · exact hok.sizes b (by simp [hb])
  · intro s' o' hmem
    rcases mem_append.mp hmem with hmem | hmem
    · exact hok.used s' o' (by simp [hmem])
    rcases mem_append.mp hmem with hmem | hmem
    · have heq : Block.used s' o' = .used size o := by
        rcases hcarve with ⟨heq, -⟩ | ⟨heq, -⟩
        · rw [heq] at hmem
          simpa using hmem
        · rw [heq] at hmem
          simpa using hmem
      obtain ⟨rfl, rfl⟩ := Block.used.inj heq
      exact ho
    · exact hok.used s' o' (by simp [hmem])
  · intro x o' hlow hhigh hx
    rw [usedAt_append, usedAt_append]
    by_cases hxa : x = addr
    · subst hxa
      rw [Mem.set_self] at hx
      obtain rfl := Cell.object.inj hx
      refine .inr (.inl ?_)
      rcases hcarve with ⟨heq, -⟩ | ⟨heq, -⟩
      · rw [heq]
        exact usedAt_cons_used.mpr (.inl ⟨hplace, rfl⟩)
      · rw [heq]
        exact usedAt_cons_used.mpr (.inl ⟨hplace, rfl⟩)
    · rw [Mem.set_of_ne hxa] at hx
      have hused := hok.objects x o' hlow hhigh (htaken.objects x o' hx)
      rw [usedAt_append, usedAt_cons_free] at hused
      rcases hused with hused | hused
      · exact .inl hused
      · rw [span_carve]
        exact .inr (.inr hused)

/-! ## The heap after an allocation -/

theorem HeapOk.other (hok : HeapOk types h) {c c' : Chunk} (hc : c ∈ h.chunks) (hc' : c' ∈ h.chunks)
    (hne : c ≠ c') (hx : c.Contains x) : x < c'.data ∨ c'.heapEnd ≤ x := by
  obtain ⟨bs, hbs⟩ := hok.chunk c hc
  obtain ⟨bs', hbs'⟩ := hok.chunk c' hc'
  exact hbs.not_contains hbs' (hok.disjoint.forall hc hc' hne) hx

theorem Shape.slots_imm (types : ℕ → TypeSpec) (s : Shape) (i : ℕ) :
    (s.object types).words.getD i (.imm 0) = .imm 0 := by
  rw [getD_eq_getElem?_getD, Shape.object]
  simp only [getElem?_replicate]
  split <;> rfl

theorem Ref.valid_imm (n : ℕ) (mem : Mem) : (Ref.imm n).Valid mem := fun addr heq => by simp at heq

theorem Shape.strongRefs_valid (types : ℕ → TypeSpec) (s : Shape) (mem : Mem) {x : Ref}
    (hx : x ∈ (s.object types).strongRefs types) : x.Valid mem := by
  rcases mem_append.mp hx with hx | hx
  · obtain ⟨i, -, rfl⟩ := mem_slots.mp hx
    rw [Obj.slot, s.slots_imm types]
    exact Ref.valid_imm 0 mem
  · simp [Obj.savedRefs, Shape.object] at hx

theorem Found.frame (hok : HeapOk types h) (hsize : 0 < size)
    (hfound : Found types h.mem h.chunks size addr mem') (o' : Obj) (ho : h.mem x = .object o) :
    (mem'.set addr (.object o')) x = .object o ∧
      (x + sexpHeapAlign (sexpAllocatedBytes types o) ≤ addr ∨ addr + size ≤ x) := by
  obtain ⟨c, hc, bs, before, s, after, hchunk, htaken⟩ := hfound
  obtain ⟨c', hc', hx⟩ := hok.within x (by rw [ho]; simp)
  have hbounds := htaken.bounds
  have hend := hchunk.heapEnd
  by_cases hsame : c' = c
  · subst hsame
    have hused := (hchunk.object_iff hx).mp ho
    obtain ⟨size', hmem, hdisjoint⟩ := htaken.disjoint hused
    rw [hchunk.used size' o hmem] at hdisjoint
    refine ⟨?_, hdisjoint⟩
    -- the block of the object is still one of the chunk
    have hblocks := htaken.blocks
    subst hblocks
    have hrep := (htaken.linked o').2
    refine hrep.object ?_
    rw [usedAt_append, usedAt_cons_free] at hused
    rw [usedAt_append, usedAt_append, span_carve]
    rcases hused with hused | hused
    · exact .inl hused
    · exact .inr (.inr hused)
  · obtain ⟨bs', hchunk'⟩ := hok.chunk c' hc'
    have hused := (hchunk'.object_iff hx).mp ho
    obtain ⟨size', hmem, hstart, hlast⟩ := usedAt_bounds hused
    have hapart := hok.disjoint.forall hc' hc hsame
    have hend' := hchunk'.heapEnd
    have hb := hchunk.bounds
    have hb' := hchunk'.bounds
    have hpos := (hchunk'.sizes _ hmem).1
    rw [hchunk'.used size' o hmem] at hlast
    rw [Block.size, hchunk'.used size' o hmem] at hpos
    unfold Chunk.Apart at hapart
    refine ⟨?_, by omega⟩
    rw [Mem.set_of_ne (by omega), htaken.frame x (by omega), ho]

theorem HeapOk.alloc {shape : Shape} (hok : HeapOk types h) (hsize : 0 < size)
    (hshape : size = sexpHeapAlign (sexpAllocatedBytes types (shape.object types)))
    (hfound : Found types h.mem h.chunks size addr mem') :
    HeapOk types ⟨h.chunks, mem'.set addr (.object (shape.object types)),
      h.weakPresent || (types shape.tag).weakBase > 0⟩ := by
  have hframe := fun x o (ho : h.mem x = .object o) =>
    (hfound.frame hok hsize (shape.object types) ho).1
  obtain ⟨c, hc, bs, before, s, after, hchunk, htaken⟩ := hfound
  have hbounds := htaken.bounds
  have hend := hchunk.heapEnd
  have hvalid : ∀ x : Ref, x.Valid h.mem →
      x.Valid (mem'.set addr (.object (shape.object types))) := by
    intro x hx a ha
    obtain ⟨o, ho⟩ := hx a ha
    exact ⟨o, hframe a o ho⟩
  -- an object of the new heap is the new one or an old one
  have hobject : ∀ x o, (mem'.set addr (.object (shape.object types))) x = .object o →
      x = addr ∧ o = shape.object types ∨ h.mem x = .object o := by
    intro x o ho
    by_cases hx : x = addr
    · subst hx
      rw [Mem.set_self] at ho
      exact .inl ⟨rfl, (Cell.object.inj ho).symm⟩
    · rw [Mem.set_of_ne hx] at ho
      exact .inr (htaken.objects x o ho)
  refine ⟨?_, hok.disjoint, ?_, hok.nonempty, ?_, ?_, ?_, ?_⟩
  · intro c' hc'
    by_cases hsame : c' = c
    · subst hsame
      exact ⟨_, hchunk.taken htaken hsize hshape⟩
    · obtain ⟨bs', hchunk'⟩ := hok.chunk c' hc'
      refine ⟨bs', hchunk'.congr fun x hx => ?_⟩
      have hother := hok.other hc' hc hsame hx
      simp only
      rw [Mem.set_of_ne (by omega), htaken.frame x (by omega)]
  · intro x hx
    by_cases hin : c.Contains x
    · exact ⟨c, hc, hin⟩
    refine hok.within x fun hblank => hx ?_
    have hout : x < c.data ∨ c.heapEnd ≤ x := by
      unfold Chunk.Contains at hin
      omega
    simp only
    rw [Mem.set_of_ne (by omega), htaken.frame x (by omega), hblank]
  · intro a o ho x hx
    rcases hobject a o ho with ⟨-, rfl⟩ | ho
    · exact shape.strongRefs_valid types _ hx
    · exact hvalid x (hok.sound a o ho x hx)
  · intro a o ho hbase i hi
    rcases hobject a o ho with ⟨-, rfl⟩ | ho
    · rw [Obj.weakSlot, shape.slots_imm types]
      exact Ref.valid_imm 0 _
    · exact hvalid _ (hok.weak a o ho hbase i hi)
  · intro habsent a o ho
    rw [Bool.or_eq_false_iff] at habsent
    rcases hobject a o ho with ⟨-, rfl⟩ | ho
    · simpa [Shape.object] using habsent.2
    · exact hok.present habsent.1 a o ho
  · rintro a ⟨o, ho, hbit⟩
    rcases hobject a o ho with ⟨-, rfl⟩ | ho
    · cases hbit
    · exact hok.unmarked a ⟨o, ho, hbit⟩

/-! ## Another chunk -/

/-- What `malloc` returned for `n` bytes is not in use. -/
def Fresh (chunks : List Chunk) (n base : ℕ) : Prop :=
  ∀ c ∈ chunks, c.base + sexpHeapPadSize c.size ≤ base ∨ base + n ≤ c.base

variable {maxSize base : ℕ}

theorem chunkOk_makeHeap (hsize : 64 ≤ size) (hdvd : 32 ∣ size)
    (hblank : ∀ x, base ≤ x → x < base + sexpHeapPadSize size → mem x = .blank) :
    ChunkOk types (sexpMakeHeap size maxSize base mem).2 (sexpMakeHeap size maxSize base mem).1
      [.free (size - 32)] := by
  have halign := le_sexpHeapAlign (48 + base)
  have hne : sexpHeapAlign (48 + base) ≠ sexpHeapAlign (48 + base) + 32 := by omega
  refine ⟨rfl, ?_, ⟨?_, ?_, trivial⟩, ?_, ?_, ?_, ?_⟩
  · simp only [sexpMakeHeap, span_cons, span_nil, Block.size]
    omega
  · simp only [sexpMakeHeap]
    rw [Mem.set_of_ne hne, Mem.set_self]
    rfl
  · simp only [sexpMakeHeap]
    rw [Mem.set_self]
    rfl
  · intro b hb
    obtain rfl := mem_singleton.mp hb
    exact ⟨by simp only [Block.size]; omega, Nat.dvd_sub hdvd (Nat.dvd_refl 32)⟩
  · exact isChain_singleton _
  · intro s o hmem
    simp at hmem
  · intro x o hlow hhigh hx
    simp only [sexpMakeHeap, Chunk.heapEnd] at hlow hhigh hx
    by_cases h₁ : x = sexpHeapAlign (48 + base) + 32
    · subst h₁
      simp at hx
    by_cases h₂ : x = sexpHeapAlign (48 + base)
    · subst h₂
      rw [Mem.set_of_ne h₁, Mem.set_self] at hx
      simp at hx
    · rw [Mem.set_of_ne h₁, Mem.set_of_ne h₂, hblank x (by omega) (by
        rw [sexpHeapPadSize]
        omega)] at hx
      cases hx

theorem sexpMakeHeap_frame (hx : ¬ (sexpMakeHeap size maxSize base mem).1.Contains x)
    (hsize : 64 ≤ size) :
    (sexpMakeHeap size maxSize base mem).2 x = mem x := by
  simp only [sexpMakeHeap, Chunk.Contains, Chunk.heapEnd] at hx ⊢
  rw [Mem.set_of_ne (by omega), Mem.set_of_ne (by omega)]

theorem HeapOk.memory_blank (hok : HeapOk types h) {n : ℕ} (hfresh : Fresh h.chunks n base)
    (hlow : base ≤ x) (hhigh : x < base + n) : h.mem x = .blank := by
  by_contra hne
  obtain ⟨c, hc, h₁, h₂⟩ := hok.within x hne
  obtain ⟨bs, hchunk⟩ := hok.chunk c hc
  have hbounds := hchunk.bounds
  have := hfresh c hc
  omega

theorem HeapOk.add_chunk (hok : HeapOk types h) (hsize : 64 ≤ size) (hdvd : 32 ∣ size)
    (hfresh : Fresh h.chunks (sexpHeapPadSize size) base) :
    HeapOk types { h with
        chunks := h.chunks ++ [(sexpMakeHeap size maxSize base h.mem).1]
        mem := (sexpMakeHeap size maxSize base h.mem).2 } ∧
      ∀ x o, (sexpMakeHeap size maxSize base h.mem).2 x = .object o ↔ h.mem x = .object o := by
  have hnew : ChunkOk types (sexpMakeHeap size maxSize base h.mem).2
      (sexpMakeHeap size maxSize base h.mem).1 [.free (size - 32)] :=
    chunkOk_makeHeap hsize hdvd fun x => hok.memory_blank hfresh
  have hbounds := hnew.bounds
  -- what the new chunk contains was blank
  have hcontains : ∀ x, (sexpMakeHeap size maxSize base h.mem).1.Contains x → h.mem x = .blank := by
    rintro x ⟨hlow, hhigh⟩
    exact hok.memory_blank hfresh (hbounds.1.le.trans hlow) (hhigh.trans_le hbounds.2)
  have hobject : ∀ x o, (sexpMakeHeap size maxSize base h.mem).2 x = .object o ↔
      h.mem x = .object o := by
    intro x o
    by_cases hx : (sexpMakeHeap size maxSize base h.mem).1.Contains x
    · rw [hcontains x hx, hnew.object_iff hx, usedAt_cons_free]
      simp
    · rw [sexpMakeHeap_frame hx hsize]
  have hvalid : ∀ x : Ref, x.Valid h.mem → x.Valid (sexpMakeHeap size maxSize base h.mem).2 := by
    intro x hx a ha
    obtain ⟨o, ho⟩ := hx a ha
    exact ⟨o, (hobject a o).mpr ho⟩
  refine ⟨⟨?_, ?_, ?_, by simp, ?_, ?_, ?_, ?_⟩, hobject⟩
  · intro c hc
    rcases mem_append.mp hc with hc | hc
    · obtain ⟨bs, hchunk⟩ := hok.chunk c hc
      refine ⟨bs, hchunk.congr fun x hx => sexpMakeHeap_frame (fun hin => ?_) hsize⟩
      have hold := hchunk.bounds
      have hbase : (sexpMakeHeap size maxSize base h.mem).1.base = base := rfl
      have hsz : (sexpMakeHeap size maxSize base h.mem).1.size = size := rfl
      rw [hbase, hsz] at hbounds
      have happ := hfresh c hc
      obtain ⟨h₁, h₂⟩ := hx
      obtain ⟨h₃, h₄⟩ := hin
      omega
    · obtain rfl := mem_singleton.mp hc
      exact ⟨_, hnew⟩
  · rw [pairwise_append]
    refine ⟨hok.disjoint, pairwise_singleton _ _, fun c hc c' hc' => ?_⟩
    obtain rfl := mem_singleton.mp hc'
    exact hfresh c hc
  · intro x hx
    by_cases hin : (sexpMakeHeap size maxSize base h.mem).1.Contains x
    · exact ⟨_, by simp, hin⟩
    · simp only [sexpMakeHeap_frame hin hsize] at hx
      obtain ⟨c, hc, hcx⟩ := hok.within x hx
      exact ⟨c, by simp [hc], hcx⟩
  · intro a o ho x hx
    exact hvalid x (hok.sound a o ((hobject a o).mp ho) x hx)
  · intro a o ho hbase i hi
    exact hvalid _ (hok.weak a o ((hobject a o).mp ho) hbase i hi)
  · exact fun habsent a o ho => hok.present habsent a o ((hobject a o).mp ho)
  · rintro a ⟨o, ho, hbit⟩
    exact hok.unmarked a ⟨o, (hobject a o).mp ho, hbit⟩

/-- The memory that `malloc` returns for a growth, if any, is not in use. -/
def GrowFresh (chunks : List Chunk) (size : ℕ) (malloc : Malloc) : Prop :=
  ∀ base, malloc = some base → Fresh chunks (sexpHeapPadSize (growSize chunks size)) base

theorem HeapOk.growSize (hok : HeapOk types h) (size : ℕ) :
    64 ≤ growSize h.chunks size ∧ 32 ∣ growSize h.chunks size := by
  refine ⟨?_, Nat.dvd_mul_left_of_dvd (dvd_sexpHeapAlign _) 2⟩
  have hlast : h.chunks.getLast hok.nonempty ∈ h.chunks := getLast_mem hok.nonempty
  obtain ⟨bs, hchunk⟩ := hok.chunk _ hlast
  have hfull := hchunk.full
  rw [Gc.growSize, getLast?_eq_some_getLast hok.nonempty, Option.map_some, Option.getD_some]
  have halign := le_sexpHeapAlign (max (h.chunks.getLast hok.nonempty).size size)
  have hmax := le_max_left (h.chunks.getLast hok.nonempty).size size
  omega

/-- A new chunk changes no object. -/
theorem sexpGrowHeap_spec {malloc : Malloc} (hok : HeapOk types h)
    (hfresh : GrowFresh h.chunks size malloc) :
    HeapOk types (sexpGrowHeap size malloc h) ∧
      ∀ x o, (sexpGrowHeap size malloc h).mem x = .object o ↔ h.mem x = .object o := by
  cases malloc with
  | none => exact ⟨hok, fun _ _ => Iff.rfl⟩
  | some base =>
    obtain ⟨hsize, hdvd⟩ := hok.growSize size
    exact hok.add_chunk hsize hdvd (hfresh base rfl)

theorem sexpBootstrapHeap_ok (size maxSize base : ℕ) :
    HeapOk types (sexpBootstrapHeap size maxSize base) := by
  have hsize : 64 ≤ sexpHeapAlign (if size < 8 * 1024 then 2 * 1024 * 1024 else size) := by
    have halign := le_sexpHeapAlign (if size < 8 * 1024 then 2 * 1024 * 1024 else size)
    split_ifs at halign ⊢ with hsmall <;> omega
  have hnew : ChunkOk types
      (sexpMakeHeap (sexpHeapAlign (if size < 8 * 1024 then 2 * 1024 * 1024 else size))
        (sexpHeapAlign maxSize) base fun _ => .blank).2 _ _ :=
    chunkOk_makeHeap hsize (dvd_sexpHeapAlign _) fun _ _ _ => rfl
  -- no object is anywhere: there is one block, and it is free
  have hnone : ∀ x o, (sexpBootstrapHeap size maxSize base).mem x ≠ .object o := by
    intro x o ho
    by_cases hx : (sexpMakeHeap (sexpHeapAlign (if size < 8 * 1024 then 2 * 1024 * 1024 else size))
        (sexpHeapAlign maxSize) base fun _ => .blank).1.Contains x
    · have hused := (hnew.object_iff hx).mp ho
      rw [usedAt_cons_free] at hused
      exact not_usedAt_nil hused
    · have hframe := sexpMakeHeap_frame hx hsize
      exact Cell.noConfusion (hframe.symm.trans ho)
  refine ⟨?_, pairwise_singleton _ _, ?_, by simp [sexpBootstrapHeap], ?_, ?_, ?_, ?_⟩
  · intro c hc
    obtain rfl := mem_singleton.mp hc
    exact ⟨_, hnew⟩
  · intro x hx
    refine ⟨_, mem_singleton_self _, ?_⟩
    by_contra hout
    exact hx (sexpMakeHeap_frame hout hsize)
  · exact fun a o ho => absurd ho (hnone a o)
  · exact fun a o ho => absurd ho (hnone a o)
  · exact fun _ a o ho => absurd ho (hnone a o)
  · exact fun a ⟨o, ho, _⟩ => hnone a o ho

end ChibiScheme.Gc
