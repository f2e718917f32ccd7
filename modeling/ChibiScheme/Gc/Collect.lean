import ChibiScheme.Gc.HeapAlloc

/-!
# Collecting

`sexp_gc`: marking from the roots, resetting the weak references, sweeping.  What is left
are the objects that can be reached from the roots, where they were; weak slots that
referred to others hold `#f`.
-/

namespace ChibiScheme.Gc

open Tiling List Option

variable {types : ℕ → TypeSpec} {mem mem' start : Mem} {c : Chunk} {bs done rest : List (Block Obj)}
  {h : Heap}

/-! ## Marking from the roots -/

private theorem closed_of_marks {x : Ref} (hclosed : mem.Closed types) (hgrows : mem.Grows mem')
    (hmarks : ∀ a, mem'.Marked a ↔ mem.Marked a ∨
      ∃ b, x = .ptr b ∧ Relation.ReflTransGen (mem.Edge types) b a) : mem'.Closed types := by
  intro a b hmarked hedge
  rw [hgrows.edge_iff] at hedge
  rw [hmarks] at hmarked ⊢
  rcases hmarked with hold | ⟨r, hr, hpath⟩
  · exact .inl (hclosed a b hold hedge)
  · exact .inr ⟨r, hr, hpath.tail hedge⟩

theorem unmarked_le_card (dom : Finset ℕ) (mem : Mem) : unmarked dom mem ≤ dom.card :=
  Finset.card_filter_le _ _

/-- The roots are marked one after the other. -/
theorem markRoots_spec {dom : Finset ℕ} (fuel : ℕ) (hfuel : dom.card < fuel) (roots : List Ref)
    (hsound : mem.Sound types) (hdom : mem.Within dom) (hclosed : mem.Closed types)
    (hroots : ∀ x ∈ roots, x.Valid mem) :
    ∃ mem', roots.foldlM (fun mem x => sexpMark types fuel x mem) mem = some mem' ∧ mem.Grows mem' ∧
      mem'.Closed types ∧ ∀ a, mem'.Marked a ↔ mem.Marked a ∨
        ∃ b, .ptr b ∈ roots ∧ Relation.ReflTransGen (mem.Edge types) b a := by
  induction roots generalizing mem with
  | nil => exact ⟨mem, rfl, Mem.Grows.refl mem, hclosed, by simp⟩
  | cons x roots ih =>
    obtain ⟨mem₁, hrun, hgrows, hmarks⟩ := sexpMark_spec fuel x hsound hdom hclosed
      (hroots x mem_cons_self) ((unmarked_le_card dom mem).trans_lt hfuel)
    obtain ⟨mem₂, hrest, hgrows₂, hclosed₂, hmarks₂⟩ := ih (hgrows.sound hsound)
      (hgrows.within hdom) (closed_of_marks hclosed hgrows hmarks)
      (fun y hy => hgrows.valid (hroots y (mem_cons_of_mem _ hy)))
    refine ⟨mem₂, by rw [foldlM_cons, hrun]; exact hrest, hgrows.trans hgrows₂, hclosed₂, ?_⟩
    intro a
    rw [hmarks₂, hmarks, hgrows.edge_eq]
    constructor
    · rintro ((hold | ⟨b, rfl, hpath⟩) | ⟨b, hb, hpath⟩)
      · exact .inl hold
      · exact .inr ⟨b, mem_cons_self, hpath⟩
      · exact .inr ⟨b, mem_cons_of_mem _ hb, hpath⟩
    · rintro (hold | ⟨b, hb, hpath⟩)
      · exact .inl (.inl hold)
      · rcases mem_cons.mp hb with heq | hb
        · exact .inl (.inr ⟨b, heq.symm, hpath⟩)
        · exact .inr ⟨b, hb, hpath⟩

theorem exists_domain (chunks : List Chunk) :
    ∃ dom : Finset ℕ, (∀ c ∈ chunks, ∀ x, c.Contains x → x ∈ dom) ∧
      dom.card ≤ sexpHeapTotalSize chunks := by
  induction chunks with
  | nil => exact ⟨∅, by simp, by simp⟩
  | cons c chunks ih =>
    obtain ⟨dom, hdom, hcard⟩ := ih
    refine ⟨Finset.Ico c.data c.heapEnd ∪ dom, fun c' hc' x hx => ?_, ?_⟩
    · rw [Finset.mem_union]
      rcases mem_cons.mp hc' with rfl | hc'
      · exact .inl (Finset.mem_Ico.mpr hx)
      · exact .inr (hdom c' hc' x hx)
    · refine (Finset.card_union_le _ _).trans ?_
      rw [Nat.card_Ico, Chunk.heapEnd]
      simp only [sexpHeapTotalSize, map_cons, sum_cons] at hcard ⊢
      omega

/-- The object can be reached from a root. -/
def Live (types : ℕ → TypeSpec) (roots : List Ref) (mem : Mem) (a : ℕ) : Prop :=
  ∃ b, .ptr b ∈ roots ∧ Relation.ReflTransGen (mem.Edge types) b a

theorem HeapOk.mark (hok : HeapOk types h) {roots : List Ref} (hroots : ∀ x ∈ roots, x.Valid h.mem) :
    ∃ mem', roots.foldlM (fun mem x => sexpMark types (sexpHeapTotalSize h.chunks + 1) x mem) h.mem =
        some mem' ∧ h.mem.Grows mem' ∧ mem'.Closed types ∧
      ∀ a, mem'.Marked a ↔ Live types roots h.mem a := by
  obtain ⟨dom, hdom, hcard⟩ := exists_domain h.chunks
  have hwithin : h.mem.Within dom := by
    intro a o ho
    obtain ⟨c, hc, ha⟩ := hok.within a (by rw [ho]; simp)
    exact hdom c hc a ha
  obtain ⟨mem', hrun, hgrows, hclosed, hmarks⟩ := markRoots_spec (sexpHeapTotalSize h.chunks + 1)
    (Nat.lt_succ_of_le hcard) roots hok.sound hwithin
    (fun a _ hmarked _ => absurd hmarked (hok.unmarked a)) hroots
  refine ⟨mem', hrun, hgrows, hclosed, fun a => ?_⟩
  rw [hmarks]
  exact or_iff_right (hok.unmarked a)

theorem Mem.Grows.updates (hgrows : mem.Grows mem') : mem.Updates types mem' := by
  intro x
  rcases hgrows x with hsame | ⟨o, ho, hmarked⟩
  · exact .inl hsame
  · exact .inr ⟨o, _, ho, hmarked, rfl⟩

/-! ## The weak slots of one object -/

/-- An object in which words have become `#f`. -/
def Resets (o o' : Obj) : Prop :=
  ∃ words broken, o' = { o with words := words, broken := broken } ∧ ∀ i,
    words.getD i (.imm 0) = o.words.getD i (.imm 0) ∨ words.getD i (.imm 0) = sexpFalse

theorem Resets.refl (o : Obj) : Resets o o := ⟨o.words, o.broken, rfl, fun _ => .inl rfl⟩

variable {o o' : Obj}

theorem Resets.trans {o'' : Obj} (h₁ : Resets o o') (h₂ : Resets o' o'') : Resets o o'' := by
  obtain ⟨words, broken, rfl, hwords⟩ := h₁
  obtain ⟨words', broken', rfl, hwords'⟩ := h₂
  refine ⟨words', broken', rfl, fun i => ?_⟩
  rcases hwords' i with hsame | hfalse
  · rw [hsame]
    exact hwords i
  · exact .inr hfalse

theorem Resets.tag (hresets : Resets o o') : o'.tag = o.tag := by
  obtain ⟨words, broken, rfl, -⟩ := hresets
  rfl

theorem Resets.marked (hresets : Resets o o') : o'.marked = o.marked := by
  obtain ⟨words, broken, rfl, -⟩ := hresets
  rfl

theorem Resets.allocatedBytes (hresets : Resets o o') :
    sexpAllocatedBytes types o' = sexpAllocatedBytes types o := by
  obtain ⟨words, broken, rfl, -⟩ := hresets
  rfl

theorem Resets.numWeakSlots (hresets : Resets o o') :
    o'.numWeakSlots types = o.numWeakSlots types := by
  obtain ⟨words, broken, rfl, -⟩ := hresets
  rfl

theorem Resets.strongRefs (hresets : Resets o o') {a : ℕ} (ha : .ptr a ∈ o'.strongRefs types) :
    .ptr a ∈ o.strongRefs types := by
  obtain ⟨words, broken, rfl, hwords⟩ := hresets
  rcases mem_append.mp ha with hslot | hsaved
  · obtain ⟨i, hi, hslot⟩ := mem_slots.mp hslot
    refine mem_append_left _ (mem_slots.mpr ⟨i, hi, ?_⟩)
    rcases hwords ((types o.tag).fieldBase + i) with hsame | hfalse
    · exact hsame.symm.trans hslot
    · exact absurd (hslot.symm.trans hfalse) (by simp [sexpFalse])
  · exact mem_append_right _ hsaved

variable {i : ℕ}

theorem getD_set_self {words : List Ref} {x : Ref} (hx : words.getD i (.imm 0) = x)
    (hne : x ≠ .imm 0) : (words.set i sexpFalse).getD i (.imm 0) = sexpFalse := by
  have hlt : i < words.length := by
    by_contra hge
    rw [getD_eq_getElem?_getD, getElem?_eq_none (Nat.le_of_not_lt hge)] at hx
    exact hne hx.symm
  rw [getD_eq_getElem?_getD, getElem?_set_self hlt]
  rfl

theorem getD_set_ne {words : List Ref} {j : ℕ} (hne : i ≠ j) :
    (words.set i sexpFalse).getD j (.imm 0) = words.getD j (.imm 0) := by
  rw [getD_eq_getElem?_getD, getElem?_set_ne hne, getD_eq_getElem?_getD]

theorem getD_set_imm (words : List Ref) (i : ℕ) :
    ∃ n, (words.set i sexpFalse).getD i (.imm 0) = .imm n := by
  rcases Nat.lt_or_ge i words.length with hlt | hge
  · refine ⟨62, ?_⟩
    rw [getD_eq_getElem?_getD, getElem?_set_self hlt]
    rfl
  · refine ⟨0, ?_⟩
    rw [getD_eq_getElem?_getD, getElem?_eq_none (by rw [length_set]; exact hge)]
    rfl

theorem resets_clearSlot (o : Obj) (i : ℕ) : Resets o (o.clearSlot types i) := by
  refine ⟨_, o.broken, rfl, fun j => ?_⟩
  by_cases hij : (types o.tag).weakBase + i = j
  · subst hij
    rcases Nat.lt_or_ge ((types o.tag).weakBase + i) o.words.length with hlt | hge
    · right
      rw [getD_eq_getElem?_getD, getElem?_set_self hlt]
      rfl
    · left
      rw [set_eq_of_length_le hge]
  · exact .inl (getD_set_ne hij)

theorem weakSlot_clearSlot_of_ne (o : Obj) {j : ℕ} (hne : j ≠ i) :
    (o.clearSlot types i).weakSlot types j = o.weakSlot types j := by
  have hindex : (types o.tag).weakBase + i ≠ (types o.tag).weakBase + j := by omega
  exact getD_set_ne hindex

theorem settled_iff {x : Ref} (hx : x.Valid mem) :
    ∃ bit, settled mem x = some bit ∧ (bit = true ↔ x.Settled mem) := by
  obtain ⟨bit, hbit, hsettled⟩ := settled_eq hx
  refine ⟨bit, hbit, hsettled, fun hx => ?_⟩
  cases x with
  | imm bits => exact (some.inj hbit).symm
  | ptr addr =>
    obtain ⟨o, ho, hmarked⟩ := hx addr rfl
    rw [settled, Mem.obj?_eq_some.mpr ho, map_some, hmarked] at hbit
    exact (some.inj hbit).symm

/-- The weak slots of an object after some rounds: those before `n` are done. -/
structure SlotsReset (types : ℕ → TypeSpec) (mem : Mem) (o : Obj) (n : ℕ) (o' : Obj) (all : Bool) :
    Prop where
  resets : Resets o o'
  all_iff : all = true ↔ ∀ i < n, ¬ (o.weakSlot types i).Settled mem
  slot : ∀ i < n, (o.weakSlot types i).Settled mem ∧ o'.weakSlot types i = o.weakSlot types i ∨
    ¬ (o.weakSlot types i).Settled mem ∧ o'.weakSlot types i = sexpFalse
  later : ∀ i ≥ n, o'.weakSlot types i = o.weakSlot types i

theorem resetSlots_spec (n : ℕ) (hvalid : ∀ i < n, (o.weakSlot types i).Valid mem) :
    ∃ o' all, (List.range n).foldlM (resetSlot types mem) (o, true) = some (o', all) ∧
      SlotsReset types mem o n o' all := by
  induction n with
  | zero => exact ⟨o, true, rfl, Resets.refl o, by simp, by simp, fun _ _ => rfl⟩
  | succ n ih =>
    obtain ⟨o', all, hrun, hreset⟩ := ih fun i hi => hvalid i (by omega)
    obtain ⟨bit, hbit, hiff⟩ := settled_iff (hvalid n (by omega))
    rw [range_succ, foldlM_append, hrun]
    simp only [foldlM_cons, foldlM_nil, resetSlot, hreset.later n le_rfl, hbit,
      bind_eq_bind, bind_some]
    cases bit with
    | true =>
      have hsettled := hiff.mp rfl
      refine ⟨o', false, rfl, hreset.resets, ?_, fun i hi => ?_, fun i hi =>
        hreset.later i (by omega)⟩
      · simp only [Bool.false_eq_true, false_iff, not_forall, not_not]
        exact ⟨n, by omega, hsettled⟩
      · rcases Nat.lt_succ_iff_lt_or_eq.mp hi with hi | rfl
        · exact hreset.slot i hi
        · exact .inl ⟨hsettled, hreset.later i le_rfl⟩
    | false =>
      have hnot : ¬ (o.weakSlot types n).Settled mem := fun hsettled =>
        absurd (hiff.mpr hsettled) (by simp)
      have hne : o.weakSlot types n ≠ .imm 0 := by
        intro heq
        refine hnot fun b hb => ?_
        rw [heq] at hb
        cases hb
      have hself : (o'.clearSlot types n).weakSlot types n = sexpFalse :=
        getD_set_self (hreset.later n le_rfl) hne
      have hother : ∀ i, i ≠ n → (o'.clearSlot types n).weakSlot types i = o'.weakSlot types i :=
        fun i hi => weakSlot_clearSlot_of_ne o' hi
      refine ⟨_, all, rfl, ?_, ?_, fun i hi => ?_, fun i hi => ?_⟩
      · obtain ⟨words, broken, heq, hwords⟩ := hreset.resets.trans (resets_clearSlot o' n)
        exact ⟨words, true, by rw [heq], hwords⟩
      · rw [hreset.all_iff]
        constructor
        · intro hall i hi
          rcases Nat.lt_succ_iff_lt_or_eq.mp hi with hi | rfl
          · exact hall i hi
          · exact hnot
        · exact fun hall i hi => hall i (by omega)
      · rcases Nat.lt_succ_iff_lt_or_eq.mp hi with hi | rfl
        · have hsame := hother i (by omega)
          rcases hreset.slot i hi with ⟨hset, hkeep⟩ | ⟨hunset, hfalse⟩
          · exact .inl ⟨hset, hsame.trans hkeep⟩
          · exact .inr ⟨hunset, hsame.trans hfalse⟩
        · exact .inr ⟨hnot, hself⟩
      · exact (hother i (by omega)).trans (hreset.later i (by omega))

theorem clearSlots_spec (o : Obj) (slots : List ℕ) :
    Resets o (slots.foldl (Obj.clearSlot types) o) ∧
      (∀ i ∉ slots, (slots.foldl (Obj.clearSlot types) o).weakSlot types i = o.weakSlot types i) ∧
      ∀ i ∈ slots, ∃ n, (slots.foldl (Obj.clearSlot types) o).weakSlot types i = .imm n := by
  induction slots generalizing o with
  | nil => exact ⟨Resets.refl o, fun _ _ => rfl, by simp⟩
  | cons j slots ih =>
    obtain ⟨hresets, hother, himm⟩ := ih (o.clearSlot types j)
    refine ⟨(resets_clearSlot o j).trans hresets, fun i hi => ?_, fun i hi => ?_⟩
    · rw [mem_cons, not_or] at hi
      exact (hother i hi.2).trans (weakSlot_clearSlot_of_ne o hi.1)
    · by_cases hin : i ∈ slots
      · exact himm i hin
      · obtain rfl := (mem_cons.mp hi).resolve_right hin
        obtain ⟨n, hn⟩ := getD_set_imm o.words ((types o.tag).weakBase + i)
        exact ⟨n, (hother i hin).trans hn⟩

/-- What the weak references of an object become: a weak slot that refers to an object that
is not alive is `#f`; if that is all of them, so is the value. -/
structure ObjectReset (types : ℕ → TypeSpec) (alive : Ref → Prop) (o o' : Obj) : Prop where
  resets : Resets o o'
  slot : 0 < (types o.tag).weakBase → ∀ i < o.numWeakSlots types,
    alive (o.weakSlot types i) ∧ o'.weakSlot types i = o.weakSlot types i ∨
      ¬ alive (o.weakSlot types i) ∧ o'.weakSlot types i = sexpFalse
  extra : 0 < (types o.tag).weakBase → ∀ i < (types o.tag).weakLenExtra,
    (∀ j < o.numWeakSlots types, ¬ alive (o.weakSlot types j)) ∧
        (∃ n, o'.weakSlot types (o.numWeakSlots types + i) = .imm n) ∨
      (∃ j < o.numWeakSlots types, alive (o.weakSlot types j)) ∧
        o'.weakSlot types (o.numWeakSlots types + i) = o.weakSlot types (o.numWeakSlots types + i)

theorem resetObject_spec (hvalid : 0 < (types o.tag).weakBase →
      ∀ i < o.numWeakSlots types, (o.weakSlot types i).Valid mem) :
    ∃ o' all, resetObject types mem o = some (o', all) ∧ ObjectReset types (Ref.Settled mem) o o' := by
  unfold resetObject
  by_cases hbase : (types o.tag).weakBase > 0
  · obtain ⟨o', all, hrun, hreset⟩ := resetSlots_spec (o.numWeakSlots types) (hvalid hbase)
    have htag := hreset.resets.tag
    rw [if_pos hbase]
    simp only [hrun, bind_eq_bind, bind_some, htag]
    cases all with
    | true =>
      obtain ⟨hresets, hother, himm⟩ := @clearSlots_spec types o'
        ((List.range (types o.tag).weakLenExtra).map (o.numWeakSlots types + ·))
      refine ⟨_, true, rfl, hreset.resets.trans hresets, fun _ i hi => ?_, fun _ i hi => ?_⟩
      · have hkeep := hother i (by simp only [List.mem_map, mem_range, not_exists]; omega)
        rcases hreset.slot i hi with ⟨hset, heq⟩ | ⟨hunset, heq⟩
        · exact .inl ⟨hset, hkeep.trans heq⟩
        · exact .inr ⟨hunset, hkeep.trans heq⟩
      · exact .inl ⟨hreset.all_iff.mp rfl, himm _ (List.mem_map_of_mem (mem_range.mpr hi))⟩
    | false =>
      refine ⟨o', false, rfl, hreset.resets, fun _ => hreset.slot, fun _ i hi => .inr ⟨?_, ?_⟩⟩
      · have hsome : ¬ ∀ i < o.numWeakSlots types, ¬ (o.weakSlot types i).Settled mem :=
          fun hall => absurd (hreset.all_iff.mpr hall) (by simp)
        push Not at hsome
        exact hsome
      · exact hreset.later _ (by omega)
  · rw [if_neg hbase]
    exact ⟨o, false, rfl, Resets.refl o, fun hpos => absurd hpos hbase, fun hpos => absurd hpos hbase⟩

/-! ## The weak references of a heap -/

/-- What the weak references of memory become. -/
def resetMem (types : ℕ → TypeSpec) (mem : Mem) : Mem := fun x =>
  match mem x with
  | .object o => .object (if o.marked then ((resetObject types mem o).map Prod.fst).getD o else o)
  | cell => cell

/-- Weak slots refer to objects. -/
def Mem.WeakSound (types : ℕ → TypeSpec) (mem : Mem) : Prop :=
  ∀ a o, mem a = .object o → 0 < (types o.tag).weakBase →
    ∀ i < o.numWeakSlots types, (o.weakSlot types i).Valid mem

variable {x : ℕ}

theorem resetMem_object (hweak : mem.WeakSound types) (ho : mem x = .object o) :
    ∃ o', resetMem types mem x = .object o' ∧ Resets o o' ∧ (o.marked = true →
      (∃ all, resetObject types mem o = some (o', all)) ∧ ObjectReset types (Ref.Settled mem) o o') := by
  unfold resetMem
  rw [ho]
  cases hmark : o.marked with
  | false => exact ⟨o, by simp [hmark], Resets.refl o, by simp⟩
  | true =>
    obtain ⟨o', all, hrun, hreset⟩ := resetObject_spec (hweak x o ho)
    refine ⟨o', ?_, hreset.resets, fun _ => ⟨⟨all, hrun⟩, hreset⟩⟩
    simp only [hmark, if_true, hrun, map_some, getD_some]

theorem resetMem_of_not_object (hx : ∀ o, mem x ≠ .object o) : resetMem types mem x = mem x := by
  unfold resetMem
  split
  · rename_i o ho
    exact absurd ho (hx o)
  · rfl

private theorem settled_eq_of_partly (hweak : start.WeakSound types)
    (hpoint : ∀ x, mem x = start x ∨ mem x = resetMem types start x) : settled mem = settled start := by
  funext x
  cases x with
  | imm bits => rfl
  | ptr addr =>
    rcases hpoint addr with hsame | hreset
    · rw [settled, settled, Mem.obj?, Mem.obj?, hsame]
    by_cases hobj : ∃ o, start addr = .object o
    · obtain ⟨o, ho⟩ := hobj
      obtain ⟨o', ho', hresets, -⟩ := resetMem_object hweak ho
      rw [settled, settled, Mem.obj?_eq_some.mpr ho, Mem.obj?_eq_some.mpr (hreset.trans ho'),
        map_some, map_some, hresets.marked]
    · have hnot : ∀ o, start addr ≠ .object o := fun o ho => hobj ⟨o, ho⟩
      rw [settled, settled, Mem.obj?, Mem.obj?, hreset, resetMem_of_not_object hnot]

private theorem resetObject_of_partly (hweak : start.WeakSound types)
    (hpoint : ∀ x, mem x = start x ∨ mem x = resetMem types start x) (o : Obj) :
    resetObject types mem o = resetObject types start o := by
  unfold resetObject resetSlot
  rw [settled_eq_of_partly hweak hpoint]

/-- Where the walk through a chunk that resets weak references stands: what is behind `p`
is done. -/
structure ResetInv (types : ℕ → TypeSpec) (c : Chunk) (start mem : Mem) (p : ℕ) : Prop where
  partly : ∀ x, mem x = start x ∨ mem x = resetMem types start x
  behind : ∀ x, c.data ≤ x → x < p → mem x = resetMem types start x
  before : ∀ x, p ≤ x → x < c.heapEnd → mem x = start x

private theorem SweepInv.no_object_inside {p q size : ℕ} {b : Block Obj}
    (hinv : SweepInv types c mem done (b :: rest) p q) (hsize : b.size = size) (hlow : p < x)
    (hhigh : x < p + size) (o : Obj) : mem x ≠ .object o := by
  intro ho
  have hstop := hinv.stop
  have hplace := hinv.place
  rw [span_cons, hsize] at hstop
  have hused := hinv.objects x o (by omega) (by omega) ho
  rw [usedAt_append, span_reverse, ← hplace] at hused
  rcases hused with hdone | hrest
  · obtain ⟨s, hmem, -, hend⟩ := usedAt_bounds hdone
    rw [span_reverse] at hend
    omega
  · cases b with
    | free s =>
      obtain ⟨s', -, hstart, -⟩ := usedAt_bounds (usedAt_cons_free.mp hrest)
      simp only [Block.size] at hsize
      omega
    | used s o₁ =>
      rcases usedAt_cons_used.mp hrest with ⟨rfl, -⟩ | hrest
      · omega
      · obtain ⟨s', -, hstart, -⟩ := usedAt_bounds hrest
        simp only [Block.size] at hsize
        omega

/-- By induction on the blocks that are left of the chunk. -/
theorem resetLoop_spec (fuel broke : ℕ) {p q : ℕ} (hweak : start.WeakSound types)
    (hinv : SweepInv types c mem done rest p q) (hreset : ResetInv types c start mem p)
    (hfuel : rest.length < fuel) :
    ∃ mem' broke', resetLoop types c fuel p q mem broke = some (mem', broke') ∧
      (∀ x, c.Contains x → mem' x = resetMem types start x) ∧
      ∀ x, ¬ c.Contains x → mem' x = mem x := by
  induction fuel generalizing done rest p q mem broke with
  | zero => omega
  | succ fuel ih =>
    rw [resetLoop]
    cases rest with
    | nil =>
      have hend : ¬ p < c.heapEnd := by
        rw [hinv.stop, hinv.place, span_nil]
        omega
      rw [if_neg hend]
      exact ⟨mem, broke, rfl, fun x hx => hreset.behind x hx.1 (by have := hx.2; omega),
        fun _ _ => rfl⟩
    | cons b rest =>
      obtain ⟨hlt, hrep, q', qsize, hseek, hlast⟩ := hinv.seek
      have hb := hinv.positive b (by simp)
      have hp := hinv.place
      rw [if_pos hlt, hseek]
      simp only [bind_eq_bind, bind_some]
      rw [length_cons] at hfuel
      -- the walk leaves the rest of the block as it is
      have hinside : ∀ x, p < x → x < p + b.size → start x = resetMem types start x := by
        intro x hlow hhigh
        have hstop := hinv.stop
        rw [span_cons] at hstop
        have hsame := hreset.before x (by omega) (by omega)
        refine (resetMem_of_not_object fun o ho => ?_).symm
        exact hinv.no_object_inside rfl hlow hhigh o (hsame.trans ho)
      cases b with
      | free size =>
        rw [firstFree_free, if_pos rfl, hrep.1]
        simp only
        refine ih broke (hinv.skip hlast) ⟨hreset.partly, fun x hlow hhigh => ?_, fun x hlow hhigh =>
          hreset.before x (by omega) hhigh⟩ (by omega)
        rcases Nat.lt_trichotomy x p with hxp | rfl | hxp
        · exact hreset.behind x hlow hxp
        · have hcell := hreset.before x le_rfl hlt
          rw [hcell]
          refine (resetMem_of_not_object fun o ho => ?_).symm
          rw [hrep.1] at hcell
          exact Cell.noConfusion (hcell.trans ho)
        · have hstop := hinv.stop
          rw [span_cons, Block.size] at hstop
          rw [hreset.before x (by omega) (by omega)]
          exact hinside x hxp hhigh
      | used size o =>
        have hsize : size = sexpHeapAlign (sexpAllocatedBytes types o) :=
          hinv.sizes size o mem_cons_self
        simp only [Block.size] at hb hinside
        have hne : firstFree p (.used size o :: rest) 0 ≠ p := firstFree_used_ne hb (by omega)
        have hobj : mem.obj? p = some o := by rw [Mem.obj?, hrep.1]
        have ho : start p = .object o := (hreset.before p le_rfl hlt).symm.trans hrep.1
        rw [if_neg hne, hobj]
        simp only [bind_some, ← hsize]
        -- what the walk has done once the object is dealt with
        have hnext : ∀ o', resetMem types start p = .object o' →
            ResetInv types c start (mem.set p (.object o')) (p + size) := by
          intro o' ho'
          refine ⟨fun x => ?_, fun x hlow hhigh => ?_, fun x hlow hhigh => ?_⟩
          · by_cases hxp : x = p
            · subst hxp
              exact .inr (by rw [Mem.set_self, ho'])
            · rw [Mem.set_of_ne hxp]
              exact hreset.partly x
          · rcases Nat.lt_trichotomy x p with hxp | rfl | hxp
            · rw [Mem.set_of_ne (by omega)]
              exact hreset.behind x hlow hxp
            · rw [Mem.set_self, ho']
            · have hstop := hinv.stop
              rw [span_cons, Block.size] at hstop
              rw [Mem.set_of_ne (by omega), hreset.before x (by omega) (by omega)]
              exact hinside x hxp hhigh
          · rw [Mem.set_of_ne (by omega)]
            exact hreset.before x (by omega) hhigh
        have hframe : ∀ {mem' : Mem} {o' : Obj}, (∀ x, ¬ c.Contains x →
            mem' x = (mem.set p (.object o')) x) → ∀ x, ¬ c.Contains x → mem' x = mem x := by
          intro mem' o' hmem' x hx
          rw [hmem' x hx, Mem.set_of_ne]
          rintro rfl
          exact hx ⟨by omega, hlt⟩
        obtain ⟨o', ho', hresets, hmarked⟩ := resetMem_object hweak ho
        cases hmark : o.marked with
        | true =>
          obtain ⟨⟨all, hrun⟩, -⟩ := hmarked hmark
          rw [resetObject_of_partly hweak hreset.partly, hrun]
          simp only [if_true, bind_some]
          obtain ⟨mem', broke', hloop, hdone, hrest⟩ := ih (broke + all.toNat)
            (hinv.keep o' hlast) (hnext o' ho') (by omega)
          exact ⟨mem', broke', hloop, hdone, hframe hrest⟩
        | false =>
          simp only [Bool.false_eq_true, if_false]
          have hsame : mem.set p (.object o) = mem := by
            funext x
            by_cases hxp : x = p
            · subst hxp
              rw [Mem.set_self, hrep.1]
            · exact Mem.set_of_ne hxp _ _
          have hkeep : resetMem types start p = .object o := by
            unfold resetMem
            rw [ho]
            simp [hmark]
          have hstep := hnext o hkeep
          have hpast := hinv.keep o hlast
          rw [hsame] at hstep hpast
          exact ih broke hpast hstep (by omega)

theorem ChunkOk.sweepInv (hok : ChunkOk types mem c bs) :
    SweepInv types c mem [] bs c.firstBlock c.data := by
  refine ⟨hok.linked, hok.positive, hok.apart, hok.used, rfl, ?_, .inl rfl, hok.objects⟩
  rw [hok.heapEnd]
  simp

theorem ChunkOk.length_lt (hok : ChunkOk types mem c bs) : bs.length < c.size + 1 := by
  have hlen := length_le_span hok.positive
  have hfull := hok.full
  omega

private theorem ChunkOk.head_not_object (hok : ChunkOk types mem c bs) (hlow : c.data ≤ x)
    (hhigh : x < c.firstBlock) (o : Obj) : mem x ≠ .object o := by
  intro ho
  have hend := hok.heapEnd
  unfold Chunk.firstBlock at hhigh
  obtain ⟨s, -, hstart, -⟩ := usedAt_bounds (hok.objects x o hlow (by omega) ho)
  omega

theorem resetChunks_spec (hweak : start.WeakSound types) (chunks : List Chunk) (broke : ℕ)
    (hchunks : ∀ c ∈ chunks, ∃ bs, ChunkOk types start c bs) (hdisjoint : chunks.Pairwise Chunk.Apart)
    (hpoint : ∀ x, mem x = start x ∨ mem x = resetMem types start x)
    (hsame : ∀ c ∈ chunks, ∀ x, c.Contains x → mem x = start x) :
    ∃ mem' broke', chunks.foldlM (fun (mem, broke) c =>
        resetLoop types c (c.size + 1) c.firstBlock c.data mem broke) (mem, broke) =
          some (mem', broke') ∧
      (∀ c ∈ chunks, ∀ x, c.Contains x → mem' x = resetMem types start x) ∧
      ∀ x, (∀ c ∈ chunks, ¬ c.Contains x) → mem' x = mem x := by
  induction chunks generalizing mem broke with
  | nil => exact ⟨mem, broke, rfl, by simp, fun _ _ => rfl⟩
  | cons c chunks ih =>
    obtain ⟨bs, hok⟩ := hchunks c mem_cons_self
    rw [pairwise_cons] at hdisjoint
    have hok' : ChunkOk types mem c bs := hok.congr (hsame c mem_cons_self)
    have hinv : ResetInv types c start mem c.firstBlock := by
      refine ⟨hpoint, fun x hlow hhigh => ?_, fun x hlow hhigh => ?_⟩
      · have hend := hok.heapEnd
        have hin : c.Contains x := ⟨hlow, by unfold Chunk.firstBlock at hhigh; omega⟩
        rw [hsame c mem_cons_self x hin]
        exact (resetMem_of_not_object (hok.head_not_object hlow hhigh)).symm
      · unfold Chunk.firstBlock at hlow
        exact hsame c mem_cons_self x ⟨by omega, hhigh⟩
    obtain ⟨mem₁, broke₁, hrun, hin, hout⟩ := resetLoop_spec (c.size + 1) broke hweak hok'.sweepInv hinv
      hok'.length_lt
    -- the other chunks are as they were
    have hother : ∀ c' ∈ chunks, ∀ x, c'.Contains x → ¬ c.Contains x := by
      intro c' hc' x hx hcx
      obtain ⟨bs', hc'ok⟩ := hchunks c' (mem_cons_of_mem _ hc')
      have hnot := hok.not_contains hc'ok (hdisjoint.1 c' hc') hcx
      obtain ⟨hlow, hhigh⟩ := hx
      omega
    have hpoint₁ : ∀ x, mem₁ x = start x ∨ mem₁ x = resetMem types start x := by
      intro x
      by_cases hx : c.Contains x
      · exact .inr (hin x hx)
      · rw [hout x hx]
        exact hpoint x
    have hsame₁ : ∀ c' ∈ chunks, ∀ x, c'.Contains x → mem₁ x = start x := by
      intro c' hc' x hx
      rw [hout x (hother c' hc' x hx)]
      exact hsame c' (mem_cons_of_mem _ hc') x hx
    obtain ⟨mem', broke', hrest, hdone, hframe⟩ := ih broke₁
      (fun c' hc' => hchunks c' (mem_cons_of_mem _ hc')) hdisjoint.2 hpoint₁ hsame₁
    refine ⟨mem', broke', by rw [foldlM_cons]; simp only [hrun]; exact hrest, ?_, ?_⟩
    · intro c' hc' x hx
      rcases mem_cons.mp hc' with rfl | hc'
      · rw [hframe x fun c₂ hc₂ hx₂ => hother c₂ hc₂ x hx₂ hx]
        exact hin x hx
      · exact hdone c' hc' x hx
    · intro x hx
      rw [hframe x fun c' hc' => hx c' (mem_cons_of_mem _ hc')]
      exact hout x (hx c mem_cons_self)

/-- Every object with dead weak references is reset, in whatever order. -/
theorem sexpResetWeakReferences_spec {chunks : List Chunk} (hweak : mem.WeakSound types)
    (hchunks : ∀ c ∈ chunks, ∃ bs, ChunkOk types mem c bs) (hdisjoint : chunks.Pairwise Chunk.Apart)
    (hwithin : ∀ x, mem x ≠ .blank → ∃ c ∈ chunks, c.Contains x) :
    ∃ broke, sexpResetWeakReferences types true chunks mem = some (resetMem types mem, broke) := by
  obtain ⟨mem', broke, hrun, hdone, hframe⟩ := resetChunks_spec hweak chunks 0 hchunks hdisjoint
    (fun x => .inl rfl) (fun _ _ _ _ => rfl)
  refine ⟨broke, ?_⟩
  have hall : mem' = resetMem types mem := by
    funext x
    by_cases hx : ∃ c ∈ chunks, c.Contains x
    · obtain ⟨c, hc, hcx⟩ := hx
      exact hdone c hc x hcx
    · have hblank : mem x = .blank := by
        by_contra hne
        exact hx (hwithin x hne)
      rw [hframe x fun c hc hcx => hx ⟨c, hc, hcx⟩]
      exact (resetMem_of_not_object (by rw [hblank]; simp)).symm
  rw [sexpResetWeakReferences, if_neg (by simp), hrun, hall]

/-! ## Sweeping a heap -/

/-- After the sweep the marked objects are left, without their marks. -/
structure SweptHeap (types : ℕ → TypeSpec) (chunks : List Chunk) (s s' : SweepState) : Prop where
  chunk : ∀ c ∈ chunks, ∃ bs, ChunkOk types s'.mem c bs
  kept : ∀ c ∈ chunks, ∀ x, c.Contains x → ∀ o', s'.mem x = .object o' ↔
    ∃ o, s.mem x = .object o ∧ o.marked = true ∧ o' = clearMark o
  frame : ∀ x, (∀ c ∈ chunks, ¬ c.Contains x) → s'.mem x = s.mem x
  le_max : s.maxFreed ≤ s'.maxFreed
  max_cases : s'.maxFreed = s.maxFreed ∨
    ∃ c ∈ chunks, ∃ bs, ChunkOk types s'.mem c bs ∧ .free s'.maxFreed ∈ bs
  max_pos : ∀ c ∈ chunks, ∀ x o, c.Contains x → s.mem x = .object o → o.marked = false →
    0 < s'.maxFreed

private theorem ChunkOk.swept {s s' : SweepState} (hok : ChunkOk types s.mem c bs)
    (hswept : Swept c s.maxFreed s s' [] bs) :
    ChunkOk types s'.mem c (sweep keepMarked clearMark [] bs) := by
  refine ⟨hok.data, ?_, hswept.linked, ?_, ?_, ?_, hswept.objects⟩
  · rw [span_sweep, hok.full]
    simp
  · have hadd : ∀ s t : ℕ, 0 < s ∧ 32 ∣ s → 0 < t ∧ 32 ∣ t → 0 < s + t ∧ 32 ∣ s + t :=
      fun s t hs ht => ⟨by omega, Nat.dvd_add hs.2 ht.2⟩
    exact forall_size_sweep hadd (by simp) hok.sizes
  · exact apart_sweep isChain_nil bs
  · intro size o' hmem
    rcases used_mem_sweep hmem with hnone | ⟨o, ho, rfl⟩
    · simp at hnone
    · exact hok.used size o ho

theorem usedAt_swept {a : ℕ} :
    UsedAt a (sweep keepMarked clearMark [] bs) x o' ↔
      ∃ o, UsedAt a bs x o ∧ o.marked = true ∧ o' = clearMark o := by
  rw [usedAt_sweep]
  simp only [reverse_nil, not_usedAt_nil, false_or, span_nil, Nat.add_zero]
  rfl

/-- The chunks are swept one after the other. -/
theorem sexpSweep_spec (chunks : List Chunk) (s : SweepState)
    (hchunks : ∀ c ∈ chunks, ∃ bs, ChunkOk types s.mem c bs) (hdisjoint : chunks.Pairwise Chunk.Apart) :
    ∃ s', sexpSweep types chunks s = some s' ∧ SweptHeap types chunks s s' := by
  induction chunks generalizing s with
  | nil =>
    exact ⟨s, rfl, by simp, by simp, fun _ _ => rfl, le_rfl, .inl rfl, by simp⟩
  | cons c chunks ih =>
    obtain ⟨bs, hok⟩ := hchunks c mem_cons_self
    rw [pairwise_cons] at hdisjoint
    obtain ⟨s₁, hrun, hswept⟩ := sweepLoop_spec (c.size + 1) hok.sweepInv (.inl rfl) hok.length_lt
    have hok₁ := hok.swept hswept
    have hout : ∀ x, ¬ c.Contains x → s₁.mem x = s.mem x := by
      intro x hx
      refine hswept.frame x ?_
      unfold Chunk.Contains at hx
      omega
    have hother : ∀ c' ∈ chunks, ∀ x, c'.Contains x → ¬ c.Contains x := by
      intro c' hc' x hx hcx
      obtain ⟨bs', hc'ok⟩ := hchunks c' (mem_cons_of_mem _ hc')
      have hnot := hok.not_contains hc'ok (hdisjoint.1 c' hc') hcx
      obtain ⟨hlow, hhigh⟩ := hx
      omega
    have hchunks₁ : ∀ c' ∈ chunks, ∃ bs, ChunkOk types s₁.mem c' bs := by
      intro c' hc'
      obtain ⟨bs', hc'ok⟩ := hchunks c' (mem_cons_of_mem _ hc')
      exact ⟨bs', hc'ok.congr fun x hx => hout x (hother c' hc' x hx)⟩
    obtain ⟨s', hrest, hdone⟩ := ih s₁ hchunks₁ hdisjoint.2
    -- later chunks do not touch the first one
    have hfirst : ∀ x, c.Contains x → s'.mem x = s₁.mem x :=
      fun x hx => hdone.frame x fun c' hc' hx' => hother c' hc' x hx' hx
    have hok' := hok₁.congr hfirst
    refine ⟨s', by rw [sexpSweep, hrun]; exact hrest, ?_, ?_, ?_, ?_, ?_, ?_⟩
    · intro c' hc'
      rcases mem_cons.mp hc' with rfl | hc'
      · exact ⟨_, hok'⟩
      · exact hdone.chunk c' hc'
    · intro c' hc' x hx o'
      rcases mem_cons.mp hc' with rfl | hc'
      · rw [hok'.object_iff hx, usedAt_swept]
        simp only [hok.object_iff hx]
      · rw [hdone.kept c' hc' x hx o', hout x (hother c' hc' x hx)]
    · intro x hx
      rw [hdone.frame x fun c' hc' => hx c' (mem_cons_of_mem _ hc')]
      exact hout x (hx c mem_cons_self)
    · exact hswept.le_max.trans hdone.le_max
    · rcases hdone.max_cases with hsame | ⟨c', hc', bs', hbs', hfree⟩
      · rw [hsame]
        rcases hswept.max_cases with hstart | hfree
        · exact .inl hstart
        · exact .inr ⟨c, mem_cons_self, _, hok', hfree⟩
      · exact .inr ⟨c', mem_cons_of_mem _ hc', bs', hbs', hfree⟩
    · intro c' hc' x o hx ho hunmarked
      rcases mem_cons.mp hc' with rfl | hc'
      · obtain ⟨size, hmem, -⟩ := usedAt_bounds ((hok.object_iff hx).mp ho)
        exact (hswept.max_pos size o hmem hunmarked).trans_le hdone.le_max
      · refine hdone.max_pos c' hc' x o hx ?_ hunmarked
        rw [hout x (hother c' hc' x hx), ho]

end ChibiScheme.Gc
