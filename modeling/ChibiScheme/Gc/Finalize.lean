import ChibiScheme.Gc.Cycle

/-!
# Finalizers

`sexp_finalize` goes over the heap after the marks are set.  Dynamic libraries are left for a
second pass, but this pass goes on where the first one stopped: behind the last chunk.
-/

namespace ChibiScheme.Gc

open Tiling List Option

/-! ## The code -/

/-- `SEXP_DL` -/
def sexpDl : ℕ := 26

/-- What `sexp_finalize` carries along, and the objects whose finalizers it has called. -/
structure FinalizeState where
  calls : List ℕ
  finalizeCount : ℕ
  freeDls : Bool

section Code

variable (types : ℕ → TypeSpec) (finalizer : ℕ → Bool)

/-- An object that is not marked; `finalizer` says which types have one. -/
def FinalizeState.visit (s : FinalizeState) (pass p tag : ℕ) : FinalizeState :=
  if finalizer tag then
    let s := { s with finalizeCount := s.finalizeCount + 1 }
    if tag = sexpDl ∧ pass = 0 then { s with freeDls := true } else { s with calls := s.calls ++ [p] }
  else s

/-- The loop of `sexp_finalize` through one chunk; where an object has no size, the source gives
up. -/
def finalizeLoop (pass : ℕ) (mem : Mem) (c : Chunk) : ℕ → ℕ → ℕ → FinalizeState → Option FinalizeState
  | 0, _, _, _ => none
  | fuel + 1, p, q, s =>
    if p < c.heapEnd then do
      let (q, r) ← seekFree mem p (c.size + 1) q
      if r = p then
        match mem r with
        | .free size _ => finalizeLoop pass mem c fuel (p + size) q s
        | _ => none
      else
        let o ← mem.obj? p
        let size := sexpHeapAlign (sexpAllocatedBytes types o)
        if size = 0 then none
        else
          let s := if !o.marked then s.visit finalizer pass p o.tag else s
          finalizeLoop pass mem c fuel (p + size) q s
    else some s

/-- `scan over the whole heap` -/
def finalizePass (pass : ℕ) (mem : Mem) (chunks : List Chunk) (s : FinalizeState) :
    Option FinalizeState :=
  chunks.foldlM (fun s c => finalizeLoop types finalizer pass mem c (c.size + 1) c.firstBlock c.data s) s

/-- `sexp_finalize`.  The first pass moves `h` to the end of the chunks, and `goto loop` does not
set it back. -/
def sexpFinalize (h : Heap) : Option FinalizeState := do
  let s ← finalizePass types finalizer 0 h.mem h.chunks ⟨[], 0, false⟩
  if s.freeDls then finalizePass types finalizer 1 h.mem [] s else some s

end Code

/-! ## One chunk -/

section Chunk

variable {types : ℕ → TypeSpec} {finalizer : ℕ → Bool} {mem : Mem} {c : Chunk}
  {done rest bs : List (Block Obj)} {a p q x : ℕ} {o : Obj}

/-- The object is not marked and has a finalizer. -/
def Obj.Dead (finalizer : ℕ → Bool) (o : Obj) : Prop := o.marked = false ∧ finalizer o.tag = true

instance : Decidable (o.Dead finalizer) := inferInstanceAs (Decidable (_ ∧ _))

/-- The dead objects of a chunk, where they are, in the order of their addresses. -/
def deadObjects (finalizer : ℕ → Bool) : ℕ → List (Block Obj) → List (ℕ × Obj)
  | _, [] => []
  | a, .free s :: bs => deadObjects finalizer (a + s) bs
  | a, .used s o :: bs =>
    (if o.Dead finalizer then [(a, o)] else []) ++ deadObjects finalizer (a + s) bs

theorem mem_deadObjects : (x, o) ∈ deadObjects finalizer a bs ↔ UsedAt a bs x o ∧ o.Dead finalizer := by
  induction bs generalizing a with
  | nil => simp [deadObjects]
  | cons b bs ih =>
    cases b with
    | free s => rw [deadObjects, ih, usedAt_cons_free]
    | used s o' =>
      rw [deadObjects, mem_append, ih, usedAt_cons_used]
      split
      · rename_i hdead
        simp only [mem_singleton, Prod.mk.injEq]
        constructor
        · rintro (⟨rfl, rfl⟩ | hused)
          · exact ⟨.inl ⟨rfl, rfl⟩, hdead⟩
          · exact ⟨.inr hused.1, hused.2⟩
        · rintro ⟨⟨rfl, rfl⟩ | hused, hdead'⟩
          · exact .inl ⟨rfl, rfl⟩
          · exact .inr ⟨hused, hdead'⟩
      · rename_i hnot
        simp only [not_mem_nil, false_or]
        constructor
        · exact fun hused => ⟨.inr hused.1, hused.2⟩
        · rintro ⟨⟨-, rfl⟩ | hused, hdead'⟩
          · exact absurd hdead' hnot
          · exact ⟨hused, hdead'⟩

theorem nodup_deadObjects (hpos : Positive bs) : ((deadObjects finalizer a bs).map Prod.fst).Nodup := by
  induction bs generalizing a with
  | nil => exact nodup_nil
  | cons b bs ih =>
    obtain ⟨hb, hrest⟩ := hpos.cons
    cases b with
    | free s => exact ih hrest
    | used s o =>
      rw [deadObjects]
      split
      · refine nodup_cons.mpr ⟨fun hmem => ?_, ih hrest⟩
        obtain ⟨⟨x, o'⟩, hmem, rfl⟩ := mem_map.mp hmem
        obtain ⟨-, -, hle, -⟩ := usedAt_bounds (mem_deadObjects.mp hmem).1
        simp only [Block.size] at hb
        omega
      · exact ih hrest

/-- What the first pass makes of these objects. -/
def visitAll (finalizer : ℕ → Bool) (s : FinalizeState) (dead : List (ℕ × Obj)) : FinalizeState :=
  dead.foldl (fun s x => s.visit finalizer 0 x.1 x.2.tag) s

theorem finalizeLoop_spec (finalizer : ℕ → Bool) (fuel : ℕ) (s : FinalizeState) (hinv : SweepInv types c mem done rest p q)
    (hfuel : rest.length < fuel) :
    finalizeLoop types finalizer 0 mem c fuel p q s =
      some (visitAll finalizer s (deadObjects finalizer p rest)) := by
  induction fuel generalizing done rest p q s with
  | zero => omega
  | succ fuel ih =>
    rw [finalizeLoop]
    cases rest with
    | nil =>
      have hend : ¬ p < c.heapEnd := by
        rw [hinv.stop, hinv.place, span_nil]
        omega
      rw [if_neg hend]
      rfl
    | cons b rest =>
      obtain ⟨hlt, hrep, q', qsize, hseek, hlast⟩ := hinv.seek
      have hb := hinv.positive b (by simp)
      have hp := hinv.place
      rw [if_pos hlt, hseek]
      simp only [bind_eq_bind, bind_some]
      rw [length_cons] at hfuel
      cases b with
      | free size =>
        rw [firstFree_free, if_pos rfl, hrep.1]
        exact ih s (hinv.skip hlast) (by omega)
      | used size o =>
        have hsize : size = sexpHeapAlign (sexpAllocatedBytes types o) :=
          hinv.sizes size o mem_cons_self
        simp only [Block.size] at hb
        have hne : firstFree p (.used size o :: rest) 0 ≠ p := firstFree_used_ne hb (by omega)
        have hobj : mem.obj? p = some o := by rw [Mem.obj?, hrep.1]
        have hpast := hinv.keep o hlast
        have hsame : mem.set p (.object o) = mem := by
          funext x
          by_cases hxp : x = p
          · rw [hxp, Mem.set_self, hrep.1]
          · exact Mem.set_of_ne hxp _ _
        rw [hsame] at hpast
        rw [if_neg hne, hobj, bind_some, ← hsize, if_neg hb.ne', ih _ hpast (by omega), deadObjects]
        cases hmark : o.marked with
        | true => simp [Obj.Dead, hmark]
        | false =>
          by_cases hfinal : finalizer o.tag = true
          · simp [Obj.Dead, hmark, hfinal, visitAll]
          · simp [Obj.Dead, hmark, hfinal, FinalizeState.visit]

theorem calls_visitAll {dead : List (ℕ × Obj)} (hdead : ∀ x ∈ dead, x.2.Dead finalizer)
    (s : FinalizeState) : (visitAll finalizer s dead).calls =
      s.calls ++ (dead.filter (fun x => x.2.tag ≠ sexpDl)).map Prod.fst := by
  induction dead generalizing s with
  | nil => exact (append_nil _).symm
  | cons x dead ih =>
    rw [visitAll, foldl_cons, ← visitAll, ih fun y hy => hdead y (mem_cons_of_mem x hy)]
    have hfinal := (hdead x mem_cons_self).2
    by_cases htag : x.2.tag = sexpDl
    · rw [htag] at hfinal
      simp [FinalizeState.visit, hfinal, htag]
    · simp [FinalizeState.visit, hfinal, htag]

end Chunk

/-! ## The whole heap -/

section Heap

variable {types : ℕ → TypeSpec} {finalizer : ℕ → Bool} {mem : Mem} {h : Heap}

/-- What holds of a heap with any marks. -/
structure Tiled (types : ℕ → TypeSpec) (h : Heap) : Prop where
  chunk : ∀ c ∈ h.chunks, ∃ bs, ChunkOk types h.mem c bs
  disjoint : h.chunks.Pairwise Chunk.Apart
  within : ∀ x, h.mem x ≠ .blank → ∃ c ∈ h.chunks, c.Contains x

theorem HeapOk.tiled (hok : HeapOk types h) : Tiled types h := ⟨hok.chunk, hok.disjoint, hok.within⟩

theorem Tiled.update (htiled : Tiled types h) (hupd : h.mem.Updates types mem) :
    Tiled types { h with mem := mem } := by
  refine ⟨fun c hc => ?_, htiled.disjoint, fun x hx => htiled.within x fun hblank => hx ?_⟩
  · obtain ⟨bs, hchunk⟩ := htiled.chunk c hc
    exact ⟨_, hchunk.update hupd⟩
  · exact (hupd.of_not_object (by rw [hblank]; simp)).trans hblank

/-- The pass visits each dead object once. -/
theorem finalizePass_spec (finalizer : ℕ → Bool) (chunks : List Chunk) (s : FinalizeState)
    (hchunks : ∀ c ∈ chunks, ∃ bs, ChunkOk types mem c bs) (hdisjoint : chunks.Pairwise Chunk.Apart) :
    ∃ dead, finalizePass types finalizer 0 mem chunks s = some (visitAll finalizer s dead) ∧
      (dead.map Prod.fst).Nodup ∧ ∀ x o, (x, o) ∈ dead ↔
        (∃ c ∈ chunks, c.Contains x) ∧ mem x = .object o ∧ o.Dead finalizer := by
  induction chunks generalizing s with
  | nil => exact ⟨[], rfl, nodup_nil, by simp⟩
  | cons c chunks ih =>
    obtain ⟨bs, hok⟩ := hchunks c mem_cons_self
    have hrun := finalizeLoop_spec finalizer (c.size + 1) s hok.sweepInv hok.length_lt
    obtain ⟨dead, hrest, hnodup, hmem⟩ := ih (visitAll finalizer s (deadObjects finalizer c.firstBlock bs))
      (fun c' hc' => hchunks c' (mem_cons_of_mem c hc')) hdisjoint.tail
    have hfirst : ∀ x o, (x, o) ∈ deadObjects finalizer c.firstBlock bs ↔
        c.Contains x ∧ mem x = .object o ∧ o.Dead finalizer := by
      intro x o
      rw [mem_deadObjects]
      constructor
      · rintro ⟨hused, hdead⟩
        have hin : c.Contains x := by
          obtain ⟨size, hblock, hlow, hhigh⟩ := usedAt_bounds hused
          have hsize := (hok.sizes _ hblock).1
          have hend := hok.heapEnd
          simp only [Chunk.firstBlock, Block.size] at hlow hhigh hsize
          exact ⟨by omega, by omega⟩
        exact ⟨hin, (hok.object_iff hin).mpr hused, hdead⟩
      · rintro ⟨hin, hobject, hdead⟩
        exact ⟨(hok.object_iff hin).mp hobject, hdead⟩
    refine ⟨deadObjects finalizer c.firstBlock bs ++ dead, ?_, ?_, fun x o => ?_⟩
    · rw [finalizePass, foldlM_cons, hrun, show visitAll finalizer s (_ ++ dead) = _ from foldl_append]
      exact hrest
    · rw [map_append]
      refine nodup_append.mpr ⟨nodup_deadObjects hok.positive, hnodup, fun x hx y hy hxy => ?_⟩
      subst hxy
      obtain ⟨⟨_, o⟩, hdead, rfl⟩ := mem_map.mp hx
      obtain ⟨⟨_, o'⟩, hdead', rfl⟩ := mem_map.mp hy
      obtain ⟨⟨c', hc', hlow, hhigh⟩, -⟩ := (hmem _ o').mp hdead'
      obtain ⟨bs', hok'⟩ := hchunks c' (mem_cons_of_mem c hc')
      have hout := hok.not_contains hok' (rel_of_pairwise_cons hdisjoint hc')
        ((hfirst _ o).mp hdead).1
      simp only at hlow hhigh hout
      omega
    · rw [mem_append, hfirst, hmem]
      simp only [mem_cons, exists_eq_or_imp]
      tauto

/-- `x` is a dynamic library. -/
def IsDl (h : Heap) (x : ℕ) : Prop := ∃ o, h.mem x = .object o ∧ o.tag = sexpDl

/-- The finalizers of the dead objects were called once each, those of the libraries last. -/
def Finalizes (finalizer : ℕ → Bool) (h : Heap) (s : FinalizeState) : Prop :=
  s.calls.Nodup ∧ (∀ x, x ∈ s.calls ↔ ∃ o, h.mem x = .object o ∧ o.Dead finalizer) ∧
    s.calls.Pairwise fun x y => IsDl h x → IsDl h y

/-- The finalizers are called as they should if and only if there is no dead library. -/
theorem sexpFinalize_iff (types : ℕ → TypeSpec) (finalizer : ℕ → Bool) (h : Heap)
    (htiled : Tiled types h) :
    ∃ s, sexpFinalize types finalizer h = some s ∧ (Finalizes finalizer h s ↔
      ∀ x o, h.mem x = .object o → o.Dead finalizer → o.tag ≠ sexpDl) := by
  obtain ⟨dead, hrun, hnodup, hmem⟩ := finalizePass_spec finalizer h.chunks
    ⟨[], 0, false⟩ htiled.chunk htiled.disjoint
  refine ⟨visitAll finalizer ⟨[], 0, false⟩ dead, ?_, ?_⟩
  · rw [sexpFinalize, hrun]
    exact ite_self _
  rw [Finalizes, calls_visitAll fun x hx => ((hmem x.1 x.2).mp hx).2.2, nil_append]
  -- the libraries are left for a second pass, which visits nothing
  have hcalls : ∀ x, x ∈ (dead.filter (fun x => x.2.tag ≠ sexpDl)).map Prod.fst ↔
      ∃ o, (x, o) ∈ dead ∧ o.tag ≠ sexpDl := by
    intro x
    simp
  constructor
  · rintro ⟨-, hall, -⟩ x o hobject hdead
    obtain ⟨o', hmem', htag⟩ := (hcalls x).mp ((hall x).mpr ⟨o, hobject, hdead⟩)
    obtain rfl := Cell.object.inj (hobject.symm.trans ((hmem x o').mp hmem').2.1)
    exact htag
  · intro hnone
    refine ⟨hnodup.sublist (filter_sublist.map _), fun x => ?_, ?_⟩
    · rw [hcalls]
      constructor
      · rintro ⟨o, hdead, -⟩
        exact ⟨o, ((hmem x o).mp hdead).2⟩
      · rintro ⟨o, hobject, hdead⟩
        have hin := htiled.within x (by rw [hobject]; exact Cell.noConfusion)
        exact ⟨o, (hmem x o).mpr ⟨hin, hobject, hdead⟩, hnone x o hobject hdead⟩
    · refine pairwise_of_forall_mem_list fun x hx y _ => ?_
      rintro ⟨o, hobject, htag⟩
      obtain ⟨o', hdead, hne⟩ := (hcalls x).mp hx
      obtain rfl := Cell.object.inj (hobject.symm.trans ((hmem x o').mp hdead).2.1)
      exact absurd htag hne

end Heap

/-- `SEXP_IPORT` -/
private def sexpIport : ℕ := 16

/-- Two ports, of which the first is marked. -/
private theorem exists_ports :
    ∃ h o o', Tiled (fun _ => sexpPairType) h ∧ h.mem 96 = .object o ∧ o.marked = true ∧
      h.mem 128 = .object o' ∧ o'.Dead (· = sexpIport) := by
  obtain ⟨h₁, h₂, o, hrun₁, hrun₂, hfirst, hsecond⟩ : ∃ h₁ h₂ o,
      sexpAllocTagged (fun _ => sexpPairType) [] none ⟨sexpIport, 0, 0, 0⟩
        (sexpBootstrapHeap 0 0 16) = some (some 96, h₁) ∧
      sexpAllocTagged (fun _ => sexpPairType) [] none ⟨sexpIport, 0, 0, 0⟩ h₁ =
        some (some 128, h₂) ∧
      h₂.mem 96 = .object o ∧ ∃ o', h₂.mem 128 = .object o' ∧ o'.Dead (· = sexpIport) :=
    ⟨_, _, _, rfl, rfl, rfl, _, rfl, rfl, rfl⟩
  obtain ⟨o', hsecond, hdead⟩ := hsecond
  have hbase : ∀ tag : ℕ, 0 < ((fun _ => sexpPairType) tag : TypeSpec).sizeBase := by
    intro tag
    show 0 < sexpPairType.sizeBase
    decide
  have hok₁ : HeapOk (fun _ => sexpPairType) h₁ :=
    (sexpBootstrapHeap_ok 0 0 16).allocTagged hbase (by simp) (fun _ heq => by cases heq) hrun₁
  have hok : HeapOk (fun _ => sexpPairType) h₂ :=
    hok₁.allocTagged hbase (by simp) (fun _ heq => by cases heq) hrun₂
  -- the mark of the first port
  obtain ⟨mem, hself, hother⟩ : ∃ mem : Mem, mem 96 = .object { o with marked := true } ∧
      ∀ x, x ≠ 96 → mem x = h₂.mem x :=
    ⟨h₂.mem.set 96 (.object { o with marked := true }), Mem.set_self h₂.mem 96 _,
      fun x hx => Mem.set_of_ne hx h₂.mem _⟩
  have hupd : h₂.mem.Updates (fun _ => sexpPairType) mem := by
    intro x
    by_cases hx : x = 96
    · subst hx
      exact .inr ⟨o, _, hfirst, hself, rfl⟩
    · exact .inl (hother x hx)
  exact ⟨{ h₂ with mem := mem }, { o with marked := true }, o', hok.tiled.update hupd, hself, rfl,
    (hother 128 (by decide)).trans hsecond, hdead⟩

/-- Of two ports the one that is not marked is finalized. -/
theorem sexpFinalize_ports :
    ∃ h s o o', h.mem 96 = .object o ∧ o.marked = true ∧ h.mem 128 = .object o' ∧
      sexpFinalize (fun _ => sexpPairType) (· = sexpIport) h = some s ∧
      Finalizes (· = sexpIport) h s ∧ 96 ∉ s.calls ∧ 128 ∈ s.calls := by
  obtain ⟨h, o, o', htiled, hfirst, hmarked, hsecond, hdead⟩ := exists_ports
  obtain ⟨s, hrun, hiff⟩ := sexpFinalize_iff (fun _ => sexpPairType) (· = sexpIport) h htiled
  have hfinal : Finalizes (· = sexpIport) h s := by
    refine hiff.mpr fun x o _ ⟨_, htag⟩ => ?_
    rw [of_decide_eq_true htag]
    decide
  refine ⟨h, s, o, o', hfirst, hmarked, hsecond, hrun, hfinal, fun hcall => ?_,
    (hfinal.2.1 128).mpr ⟨o', hsecond, hdead⟩⟩
  obtain ⟨o₁, ho₁, hunmarked, -⟩ := (hfinal.2.1 96).mp hcall
  obtain rfl := Cell.object.inj (hfirst.symm.trans ho₁)
  rw [hmarked] at hunmarked
  cases hunmarked

/-- The finalizer of a library that nothing refers to is not called. -/
theorem sexpFinalize_dl :
    ∃ h s, sexpAllocTagged (fun _ => sexpPairType) [] none ⟨sexpDl, 0, 0, 0⟩
        (sexpBootstrapHeap 0 0 16) = some (some 96, h) ∧
      sexpFinalize (fun _ => sexpPairType) (· = sexpDl) h = some s ∧
        ¬ Finalizes (· = sexpDl) h s := by
  refine ⟨_, _, rfl, rfl, fun hfinal => ?_⟩
  exact absurd ((hfinal.2.1 96).mpr ⟨_, rfl, rfl, rfl⟩) not_mem_nil

end ChibiScheme.Gc
