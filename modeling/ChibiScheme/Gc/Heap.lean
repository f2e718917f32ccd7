import ChibiScheme.Gc.Mark
import ChibiScheme.Lib.Tiling

/-!
# The heap

`sexp_make_heap`, `sexp_try_alloc`, `sexp_sweep`, `sexp_grow_heap` and `sexp_alloc`.

A heap is a list of chunks.  A chunk starts with a free block of size zero, from which
the free blocks are linked in the order of their addresses; the blocks of the chunk
follow.  Memory holds the links and the objects at the addresses where the blocks
start; inside a block there is nothing, and reading there is undefined.
-/

namespace ChibiScheme.Gc

open Tiling

/-! ## The code -/

/-- `sexp_heap_align`, for sizes whose rounding up does not leave `size_t`. -/
def sexpHeapAlign (n : ℕ) : ℕ := (n + 31) / 32 * 32

/-- `struct sexp_heap_t`, and where it is. -/
structure Chunk where
  base : ℕ
  size : ℕ
  maxSize : ℕ
  data : ℕ
deriving DecidableEq

/-- `sexp_heap_first_block` -/
def Chunk.firstBlock (c : Chunk) : ℕ := c.data + 32

/-- `sexp_heap_end` -/
def Chunk.heapEnd (c : Chunk) : ℕ := c.data + c.size

/-- `sexp_heap_pad_size`: the bytes that `malloc` is asked for. -/
def sexpHeapPadSize (size : ℕ) : ℕ := 48 + size + 32

/-- `sexp_make_heap`, with memory at `base` from `malloc`. -/
def sexpMakeHeap (size maxSize base : ℕ) (mem : Mem) : Chunk × Mem :=
  let c : Chunk := ⟨base, size, maxSize, sexpHeapAlign (48 + base)⟩
  let mem := mem.set c.data (.free 0 (c.data + 32))
  let mem := mem.set (c.data + 32) (.free (size - 32) 0)
  (c, mem)

/-- `sexp_allocated_bytes` -/
def sexpAllocatedBytes (types : ℕ → TypeSpec) (o : Obj) : ℕ :=
  o.sizeLen * (types o.tag).sizeScale + (types o.tag).sizeBase

/-- Set the `next` of a free block. -/
def setNext (mem : Mem) (addr next : ℕ) : Option Mem :=
  match mem addr with
  | .free size _ => some (mem.set addr (.free size next))
  | _ => none

/-- The walk of `sexp_try_alloc` down one free list: the block that was found, in the
memory it was taken out of. -/
def tryAllocList (size : ℕ) : ℕ → ℕ → ℕ → Mem → Option (Option (ℕ × Mem))
  | 0, _, _, _ => none
  | fuel + 1, ls1, ls2, mem =>
    if ls2 = 0 then some none
    else
      match mem ls2 with
      | .free s next =>
        if s ≥ size then
          if s ≥ size + 32 then do
            let mem ← setNext (mem.set (ls2 + size) (.free (s - size) next)) ls1 (ls2 + size)
            some (some (ls2, mem.set ls2 .blank))
          else do
            let mem ← setNext mem ls1 next
            some (some (ls2, mem.set ls2 .blank))
        else tryAllocList size fuel ls2 next mem
      | _ => none

/-- `sexp_try_alloc` -/
def sexpTryAlloc (size : ℕ) : List Chunk → Mem → Option (Option (ℕ × Mem))
  | [], _ => some none
  | c :: chunks, mem =>
    match mem c.data with
    | .free _ next => do
        match ← tryAllocList size (c.size + 1) c.data next mem with
        | some res => some (some res)
        | none => sexpTryAlloc size chunks mem
    | _ => none

/-- `find the preceding and succeeding free list pointers` -/
def seekFree (mem : Mem) (p : ℕ) : ℕ → ℕ → Option (ℕ × ℕ)
  | 0, _ => none
  | fuel + 1, q =>
    match mem q with
    | .free _ r => if r ≠ 0 ∧ r < p then seekFree mem p fuel r else some (q, r)
    | _ => none

/-- What `sexp_sweep` carries along. -/
structure SweepState where
  mem : Mem
  maxFreed : ℕ
  sumFreed : ℕ

/-- The block at `r` starts at `addr` and is not empty: its size and its `next`. -/
def mergeable (mem : Mem) (r addr : ℕ) : Option (Option (ℕ × ℕ)) :=
  if r = 0 then some none
  else
    match mem r with
    | .free size next => some (if size ≠ 0 ∧ addr = r then some (size, next) else none)
    | _ => none

/-- `free p`, in the loop of `sexp_sweep`: the memory, the size of the block that `p` is
in now, and where to go on. -/
def freeBlock (freeList p size q r : ℕ) (mem : Mem) : Option (Mem × ℕ × ℕ) :=
  match mem q with
  | .free qsize _ => do
      let next ← mergeable mem r (p + size)
      if q + qsize = p ∧ q ≠ freeList then
        -- merge q with p
        match next with
        | some (rsize, rnext) =>
          let freed := qsize + size + rsize
          some (((mem.set r .blank).set p .blank).set q (.free freed rnext), freed,
            p + size + rsize)
        | none =>
          let freed := qsize + size
          some ((mem.set p .blank).set q (.free freed r), freed, p + size)
      else
        match next with
        | some (rsize, rnext) =>
          let freed := size + rsize
          some (((mem.set r .blank).set p (.free freed rnext)).set q (.free qsize p), freed,
            p + freed)
        | none =>
          some ((mem.set p (.free size r)).set q (.free qsize p), size, p + size)
  | _ => none

/-- The loop of `sexp_sweep` through one chunk. -/
def sweepLoop (types : ℕ → TypeSpec) (c : Chunk) : ℕ → ℕ → ℕ → SweepState → Option SweepState
  | 0, _, _, _ => none
  | fuel + 1, p, q, s =>
    if p < c.heapEnd then do
      let (q, r) ← seekFree s.mem p (c.size + 1) q
      if r = p then
        match s.mem r with
        | .free size _ => sweepLoop types c fuel (p + size) q s
        | _ => none
      else
        let o ← s.mem.obj? p
        let size := sexpHeapAlign (sexpAllocatedBytes types o)
        if !o.marked then
          let (mem, freed, p) ← freeBlock c.data p size q r s.mem
          sweepLoop types c fuel p q ⟨mem, max s.maxFreed freed, s.sumFreed + size⟩
        else
          let mem := s.mem.set p (.object { o with marked := false })
          sweepLoop types c fuel (p + size) q { s with mem := mem }
    else some s

/-- `sexp_sweep` -/
def sexpSweep (types : ℕ → TypeSpec) : List Chunk → SweepState → Option SweepState
  | [], s => some s
  | c :: chunks, s => do
      let s ← sweepLoop types c (c.size + 1) c.firstBlock c.data s
      sexpSweep types chunks s

/-! ## Weak references -/

/-- `SEXP_FALSE` -/
def sexpFalse : Ref := .imm 62

/-- `sexp_type_num_weak_slots_of_object` -/
def Obj.numWeakSlots (types : ℕ → TypeSpec) (o : Obj) : ℕ :=
  o.weakLen * (types o.tag).weakLenScale + (types o.tag).weakLenBase

/-- A slot, from `sexp_type_weak_base` on. -/
def Obj.weakSlot (types : ℕ → TypeSpec) (o : Obj) (i : ℕ) : Ref :=
  o.words.getD ((types o.tag).weakBase + i) (.imm 0)

/-- Assign `SEXP_FALSE` to such a slot. -/
def Obj.clearSlot (types : ℕ → TypeSpec) (o : Obj) (i : ℕ) : Obj :=
  { o with words := o.words.set ((types o.tag).weakBase + i) sexpFalse }

/-- One round of the loop over the weak slots of an object: the object, and
`all_reset_p`. -/
def resetSlot (types : ℕ → TypeSpec) (mem : Mem) (acc : Obj × Bool) (i : ℕ) : Option (Obj × Bool) := do
  if ← settled mem (acc.1.weakSlot types i) then some (acc.1, false)
  else some ({ acc.1.clearSlot types i with broken := true }, acc.2)

/-- The weak slots of an object, and the value of an ephemeron: the object, and whether all
were reset. -/
def resetObject (types : ℕ → TypeSpec) (mem : Mem) (o : Obj) : Option (Obj × Bool) :=
  if (types o.tag).weakBase > 0 then do
    let len := o.numWeakSlots types
    let (o, allReset) ← (List.range len).foldlM (resetSlot types mem) (o, true)
    if allReset then
      let extra := (List.range (types o.tag).weakLenExtra).map (len + ·)
      some (extra.foldl (Obj.clearSlot types) o, true)
    else some (o, false)
  else some (o, false)

/-- The loop of `sexp_reset_weak_references` through one chunk. -/
def resetLoop (types : ℕ → TypeSpec) (c : Chunk) :
    ℕ → ℕ → ℕ → Mem → ℕ → Option (Mem × ℕ)
  | 0, _, _, _, _ => none
  | fuel + 1, p, q, mem, broke =>
    if p < c.heapEnd then do
      let (q, r) ← seekFree mem p (c.size + 1) q
      if r = p then
        match mem r with
        | .free size _ => resetLoop types c fuel (p + size) q mem broke
        | _ => none
      else
        let o ← mem.obj? p
        let size := sexpHeapAlign (sexpAllocatedBytes types o)
        if o.marked then
          let (o, all) ← resetObject types mem o
          resetLoop types c fuel (p + size) q (mem.set p (.object o)) (broke + all.toNat)
        else resetLoop types c fuel (p + size) q mem broke
    else some (mem, broke)

/-- `sexp_reset_weak_references`, with `SEXP_G_WEAK_OBJECTS_PRESENT`. -/
def sexpResetWeakReferences (types : ℕ → TypeSpec) (present : Bool) (chunks : List Chunk)
    (mem : Mem) : Option (Mem × ℕ) :=
  if !present then some (mem, 0)
  else chunks.foldlM (fun (mem, broke) c =>
    resetLoop types c (c.size + 1) c.firstBlock c.data mem broke) (mem, 0)

/-! ## Collecting, growing and allocating -/

/-- The chunks and the memory. -/
structure Heap where
  chunks : List Chunk
  mem : Mem
  weakPresent : Bool

/-- `sexp_heap_total_size` -/
def sexpHeapTotalSize (chunks : List Chunk) : ℕ := (chunks.map Chunk.size).sum

/-- `sexp_gc`, from the given roots: the heap, `max_freed` and `sum_freed`. -/
def sexpGc (types : ℕ → TypeSpec) (roots : List Ref) (h : Heap) : Option (Heap × ℕ × ℕ) := do
  let mem ← roots.foldlM (fun mem x => sexpMark types (sexpHeapTotalSize h.chunks + 1) x mem) h.mem
  let (mem, _) ← sexpResetWeakReferences types h.weakPresent h.chunks mem
  let s ← sexpSweep types h.chunks ⟨mem, 0, 0⟩
  some ({ h with mem := s.mem }, s.maxFreed, s.sumFreed)

/-- What `malloc` returns. -/
abbrev Malloc := Option ℕ

/-- The `new_size` of `sexp_grow_heap`, computed there in a double. -/
def growSize (chunks : List Chunk) (size : ℕ) : ℕ :=
  2 * sexpHeapAlign (max ((chunks.getLast?.map Chunk.size).getD 0) size)

/-- The request and the chunks are within a 57-bit address space, so that no size leaves `size_t`
and the double of `sexp_grow_heap` is exact: twice a multiple of 32 below `2^58`. -/
def SizesExact (chunks : List Chunk) (size : ℕ) : Prop :=
  size < 2 ^ 57 ∧ ∀ c ∈ chunks, c.size < 2 ^ 57

/-- `sexp_grow_heap`; `malloc` is asked for `sexp_heap_pad_size` of the size of the new
chunk. -/
def sexpGrowHeap (size : ℕ) (malloc : Malloc) (h : Heap) : Heap :=
  match malloc with
  | none => h
  | some base =>
    let maxSize := (h.chunks.getLast?.map Chunk.maxSize).getD 0
    let (c, mem) := sexpMakeHeap (growSize h.chunks size) maxSize base h.mem
    { h with chunks := h.chunks ++ [c], mem := mem }

/-- The condition for growing in `sexp_alloc`. -/
def needsGrowth (chunks : List Chunk) (size maxFreed sumFreed : ℕ) : Bool :=
  let total := sexpHeapTotalSize chunks
  let maxSize := (chunks.head?.map Chunk.maxSize).getD 0
  (maxFreed < size || (total > sumFreed && 4 * (total - sumFreed) > 3 * total)) &&
    (maxSize = 0 || total < maxSize)

/-- `sexp_alloc`: the address, if it is not out of memory. -/
def sexpAlloc (types : ℕ → TypeSpec) (roots : List Ref) (malloc : Malloc) (size : ℕ) (h : Heap) :
    Option (Option ℕ × Heap) := do
  let size := sexpHeapAlign size
  match ← sexpTryAlloc size h.chunks h.mem with
  | some (addr, mem) => some (some addr, { h with mem := mem })
  | none =>
    let (h, maxFreed, sumFreed) ← sexpGc types roots h
    let h := if needsGrowth h.chunks size maxFreed sumFreed then sexpGrowHeap size malloc h else h
    match ← sexpTryAlloc size h.chunks h.mem with
    | some (addr, mem) => some (some addr, { h with mem := mem })
    | none => some (none, h)

/-- The numbers that make a new object. -/
structure Shape where
  tag : ℕ
  fieldLen : ℕ
  sizeLen : ℕ
  weakLen : ℕ

/-- A new object of the shape. -/
def Shape.object (types : ℕ → TypeSpec) (s : Shape) : Obj :=
  ⟨s.tag, List.replicate ((s.sizeLen * (types s.tag).sizeScale + (types s.tag).sizeBase) / 8) (.imm 0),
    s.fieldLen, s.sizeLen, s.weakLen, [], false, false⟩

/-- `sexp_alloc_tagged`, with the lengths that its callers then set; an object with weak
slots is announced in `SEXP_G_WEAK_OBJECTS_PRESENT`. -/
def sexpAllocTagged (types : ℕ → TypeSpec) (roots : List Ref) (malloc : Malloc) (s : Shape)
    (h : Heap) : Option (Option ℕ × Heap) := do
  let o := s.object types
  match ← sexpAlloc types roots malloc (sexpAllocatedBytes types o) h with
  | (some addr, h) =>
    some (some addr, { h with
      mem := h.mem.set addr (.object o)
      weakPresent := h.weakPresent || (types s.tag).weakBase > 0 })
  | (none, h) => some (none, h)

/-- The heap that `sexp_bootstrap_context` makes. -/
def sexpBootstrapHeap (size maxSize base : ℕ) : Heap :=
  let size := if size < 8 * 1024 then 2 * 1024 * 1024 else size
  let (c, mem) := sexpMakeHeap (sexpHeapAlign size) (sexpHeapAlign maxSize) base fun _ => .blank
  ⟨[c], mem, false⟩

end ChibiScheme.Gc
