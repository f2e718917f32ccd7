import ChibiScheme.Env.Frames
import Mathlib.Data.List.DropRight

/-!
# What the operations do to the layout

Every operation on the heap comes with one on the layout, and with what becomes of the cells that the
frames have for a name.
-/

namespace ChibiScheme.Env

open Linked List

variable {Name Val : Type} [DecidableEq Name]
  {s : Heap Name Val} {environments : List ℕ} {L : Layout} {e f t v : ℕ} {name : Name}

/-! ## Inserting a frame -/

/-- The frame `v` is put under `t`. -/
def insertAfter (t v : ℕ) (frames : List ℕ) : List ℕ :=
  frames.flatMap fun f => if f = t then [t, v] else [f]

theorem insertAfter_cons_self (t v : ℕ) (frames : List ℕ) :
    insertAfter t v (t :: frames) = t :: v :: insertAfter t v frames := by
  unfold insertAfter
  rw [flatMap_cons, if_pos rfl]
  rfl

theorem insertAfter_cons_of_ne (hne : f ≠ t) (frames : List ℕ) :
    insertAfter t v (f :: frames) = f :: insertAfter t v frames := by
  unfold insertAfter
  rw [flatMap_cons, if_neg hne]
  rfl

theorem insertAfter_of_not_mem {frames : List ℕ} (hnot : t ∉ frames) :
    insertAfter t v frames = frames := by
  induction frames with
  | nil => rfl
  | cons f frames ih =>
    rw [mem_cons, not_or] at hnot
    rw [insertAfter_cons_of_ne (Ne.symm hnot.1), ih hnot.2]

theorem insertAfter_append (frames frames' : List ℕ) :
    insertAfter t v (frames ++ frames') = insertAfter t v frames ++ insertAfter t v frames' :=
  flatMap_append

theorem insertAfter_split {before after : List ℕ} (hnodup : (before ++ [t] ++ after).Nodup) :
    insertAfter t v (before ++ [t] ++ after) = before ++ [t] ++ v :: after := by
  rw [append_assoc, nodup_append] at hnodup
  obtain ⟨-, hnodup, hdisjoint⟩ := hnodup
  have hbefore : t ∉ before := fun hmem => hdisjoint t hmem t mem_cons_self rfl
  have hafter : t ∉ after := (nodup_cons.mp hnodup).1
  rw [append_assoc, insertAfter_append, insertAfter_of_not_mem hbefore, singleton_append,
    insertAfter_cons_self, insertAfter_of_not_mem hafter, append_assoc]
  rfl

theorem mem_insertAfter {frames : List ℕ} :
    f ∈ insertAfter t v frames ↔ f ∈ frames ∨ t ∈ frames ∧ f = v := by
  induction frames with
  | nil => simp [insertAfter]
  | cons g frames ih =>
    by_cases heq : g = t
    · subst heq
      rw [insertAfter_cons_self, mem_cons, mem_cons, mem_cons, ih]
      simp only [mem_cons, true_or, true_and]
      constructor
      · rintro (h | h | h | ⟨-, h⟩)
        · exact .inl (.inl h)
        · exact .inr h
        · exact .inl (.inr h)
        · exact .inr h
      · rintro ((h | h) | h)
        · exact .inl h
        · exact .inr (.inr (.inl h))
        · exact .inr (.inl h)
    · rw [insertAfter_cons_of_ne heq, mem_cons, mem_cons, ih]
      simp only [mem_cons, or_assoc, Ne.symm heq, false_or]

namespace Layout

/-- The frame `v` takes the lists of `t`. -/
def insert (L : Layout) (t v : ℕ) : Layout where
  cells := Function.update (Function.update L.cells v (L.cells t)) t []
  renames := Function.update (Function.update L.renames v (L.renames t)) t []
  body := Function.update L.body t (v :: L.body t)
  path e := insertAfter t v (L.path e)

end Layout

section Lists

variable {next first : ℕ → Link ℕ Unit} {lists : ℕ → List ℕ} {n : ℕ}

theorem chain_replace (hlists : ∀ f, Chain next (first f) (lists f) (.stop ())) (t : ℕ)
    {start : Link ℕ Unit} {cells : List ℕ} (hnew : Chain next start cells (.stop ())) (f : ℕ) :
    Chain next (Function.update first t start f) (Function.update lists t cells f) (.stop ()) := by
  by_cases hf : f = t
  · rwa [hf, Function.update_self, Function.update_self]
  · rw [Function.update_of_ne hf, Function.update_of_ne hf]
    exact hlists f

theorem descending_replace (hlt : ∀ f, Descending n (lists f)) (t : ℕ) {cells : List ℕ}
    (hnew : Descending n cells) (f : ℕ) : Descending n (Function.update lists t cells f) := by
  by_cases hf : f = t
  · rwa [hf, Function.update_self]
  · rw [Function.update_of_ne hf]
    exact hlt f

end Lists

omit [DecidableEq Name] in
theorem fits_insertFrame (hfits : Fits s environments L) (ht : t ∈ environments) (b b' : Bool) :
    Fits (s.insertFrame t b b') environments (L.insert t s.frameCount) := by
  have hlt := hfits.lt ht
  have hne : s.frameCount ≠ t := by omega
  refine {
    cells := chain_replace (chain_replace hfits.cells s.frameCount (hfits.cells t)) t rfl
    cells_lt := descending_replace
      (descending_replace hfits.cells_lt s.frameCount (hfits.cells_lt t)) t (by simp [Descending])
    renames := chain_replace (chain_replace hfits.renames s.frameCount (hfits.renames t)) t rfl
    renames_lt := descending_replace
      (descending_replace hfits.renames_lt s.frameCount (hfits.renames_lt t)) t (by simp [Descending])
    path := ?_, nodup := ?_, path_lt := ?_, body := ?_, separate := ?_, global := ?_, unused := ?_ }
  · intro e he
    have hfresh : s.frameCount ∉ L.path e := fun hmem =>
      absurd (hfits.path_lt e he _ hmem) (lt_irrefl _)
    show Chain (Function.update (Function.update s.parent s.frameCount (s.parent t)) t
      (.cell s.frameCount)) (.cell e) (insertAfter t s.frameCount (L.path e)) (.stop ())
    -- a path that goes through `t` gets the new frame behind it
    by_cases hmem : t ∈ L.path e
    · obtain ⟨before, after, hsplit⟩ := append_of_mem hmem
      rw [append_cons] at hsplit
      have hnodup := hfits.nodup e he
      have hchain := hfits.path e he
      rw [hsplit] at hnodup hchain hfresh ⊢
      rw [insertAfter_split hnodup]
      have hparent : s.parent t = headLink after (.stop ()) :=
        (chain_concat.mp (chain_append.mp hchain).1).2
      rw [hparent]
      exact hchain.insert hnodup hfresh
    · rw [insertAfter_of_not_mem hmem]
      exact ((hfits.path e he).update hfresh _).update hmem _
  · intro e he
    have hfresh : s.frameCount ∉ L.path e := fun hmem =>
      absurd (hfits.path_lt e he _ hmem) (lt_irrefl _)
    show (insertAfter t s.frameCount (L.path e)).Nodup
    by_cases hmem : t ∈ L.path e
    · obtain ⟨before, after, hsplit⟩ := append_of_mem hmem
      rw [append_cons] at hsplit
      have hnodup := hfits.nodup e he
      rw [hsplit] at hnodup hfresh ⊢
      rw [insertAfter_split hnodup, nodup_middle, nodup_cons]
      exact ⟨hfresh, hnodup⟩
    · rw [insertAfter_of_not_mem hmem]
      exact hfits.nodup e he
  · intro e he f hf
    show f < s.frameCount + 1
    rcases mem_insertAfter.mp hf with hf | ⟨-, rfl⟩
    · exact Nat.lt_succ_of_lt (hfits.path_lt e he f hf)
    · exact Nat.lt_succ_self _
  · intro e he
    obtain ⟨rest, hrest⟩ := hfits.body e he
    refine ⟨insertAfter t s.frameCount rest, ?_⟩
    show insertAfter t s.frameCount (L.path e) = _
    have hbody : t ∉ L.body e := hfits.separate e he t ht
    rw [hrest, insertAfter_append]
    by_cases heq : e = t
    · subst heq
      rw [insertAfter_cons_self, insertAfter_of_not_mem hbody]
      simp [Layout.insert]
    · rw [insertAfter_cons_of_ne heq, insertAfter_of_not_mem hbody]
      simp [Layout.insert, heq]
  · intro e he e' he'
    have hlt' := hfits.lt he'
    by_cases heq : e = t
    · subst heq
      have hnot := hfits.separate e he e' he'
      simp only [Layout.insert, Function.update_self, mem_cons, not_or]
      exact ⟨by omega, hnot⟩
    · simpa [Layout.insert, heq] using hfits.separate e he e' he'
  · intro e he
    have hlt' := hfits.lt he
    by_cases heq : e = t
    · subst heq
      simp [Heap.insertFrame]
    · have hne' : e ≠ s.frameCount := by omega
      simpa [Heap.insertFrame, heq, hne'] using hfits.global e he
  · intro f hf
    have hf : s.frameCount + 1 ≤ f := hf
    have hft : f ≠ t := by omega
    have hfv : f ≠ s.frameCount := by omega
    simpa [Layout.insert, hft, hfv] using hfits.unused f (by omega)

theorem frameCell_insertFrame_self (b b' : Bool) :
    (s.insertFrame t b b').frameCell (L.insert t v) t name = none := by
  simp [Heap.frameCell, Layout.insert]

theorem frameCell_insertFrame_new (hne : v ≠ t) (b b' : Bool) :
    (s.insertFrame t b b').frameCell (L.insert t v) v name = s.frameCell L t name := by
  simp [Heap.frameCell, Layout.insert, Heap.insertFrame, hne]

theorem frameCell_insertFrame_of_ne (hft : f ≠ t) (hfv : f ≠ v) (b b' : Bool) :
    (s.insertFrame t b b').frameCell (L.insert t v) f name = s.frameCell L f name := by
  simp [Heap.frameCell, Layout.insert, Heap.insertFrame, hft, hfv]

theorem look_insertFrame {frames : List ℕ} (hvt : v ≠ t) (hv : v ∉ frames) (b b' : Bool) :
    (s.insertFrame t b b').look (L.insert t v) (insertAfter t v frames) name =
      s.look L frames name := by
  induction frames with
  | nil => rfl
  | cons f frames ih =>
    rw [mem_cons, not_or] at hv
    have ih := ih hv.2
    unfold Heap.look at ih ⊢
    by_cases heq : f = t
    · subst heq
      rw [insertAfter_cons_self, findSome?_cons, findSome?_cons, findSome?_cons,
        frameCell_insertFrame_self, frameCell_insertFrame_new hvt, ih]
    · rw [insertAfter_cons_of_ne heq, findSome?_cons, findSome?_cons,
        frameCell_insertFrame_of_ne heq (Ne.symm hv.1), ih]

/-! ## Definitions and the layout

A definition gives a frame a new cell, or leaves the cells as they are.  A cell is unlinked only if a
variable becomes syntax; the lists of the other frames stay as they are if the cell before it belongs to
none of them. -/

variable {cell : ℕ} {k : Name} {value : Val}

namespace Layout

/-- Another list of cells for the frame `t`. -/
def setCells (L : Layout) (t : ℕ) (cells : List ℕ) : Layout :=
  { L with cells := Function.update L.cells t cells }

/-- Another list of renames for the frame `t`. -/
def setRenames (L : Layout) (t : ℕ) (renames : List ℕ) : Layout :=
  { L with renames := Function.update L.renames t renames }

end Layout

theorem find?_update_of_not_mem {A : Type} [DecidableEq A] {l : List ℕ} {n : ℕ} (hnot : n ∉ l)
    (key : ℕ → Option A) (x : Option A) (a : A) :
    (l.find? fun c => Function.update key n x c == some a) = l.find? fun c => key c == some a := by
  induction l with
  | nil => rfl
  | cons c l ih =>
    rw [List.mem_cons, not_or] at hnot
    rw [List.find?_cons, List.find?_cons, Function.update_of_ne (Ne.symm hnot.1), ih hnot.2]

/-! ## The lists of one frame -/

section Lists

variable {next first : ℕ → Link ℕ Unit} {lists : ℕ → List ℕ} {n : ℕ}

theorem chain_push (hlt : ∀ f, Descending n (lists f))
    (hlists : ∀ f, Chain next (first f) (lists f) (.stop ())) (t f : ℕ) :
    Chain (Function.update next n (first t)) (Function.update first t (.cell n) f)
      (Function.update lists t (n :: lists t) f) (.stop ()) := by
  have hkept : ∀ f, Chain (Function.update next n (first t)) (first f) (lists f) (.stop ()) :=
    fun f => (hlists f).update (fun hmem => absurd ((hlt f).2 n hmem) (lt_irrefl n)) _
  refine chain_replace hkept t (chain_cons.mpr ⟨rfl, ?_⟩) f
  rw [Function.update_self]
  exact hkept t

theorem descending_push (hlt : ∀ f, Descending n (lists f)) (t f : ℕ) :
    Descending (n + 1) (Function.update lists t (n :: lists t) f) :=
  descending_replace (fun f => (hlt f).mono (Nat.le_succ n)) t (hlt t).cons f

end Lists

omit [DecidableEq Name] in
theorem fits_envPush (hfits : Fits s environments L) (ht : t ∈ environments) :
    Fits (s.envPush t name value) environments (L.setCells t (s.cellCount :: L.cells t)) := by
  refine { hfits with
    cells := chain_push hfits.cells_lt hfits.cells t
    cells_lt := descending_push hfits.cells_lt t
    unused := fun f hf => ?_ }
  have hlt := hfits.lt ht
  have hf : s.frameCount ≤ f := hf
  have hne : f ≠ t := by omega
  simp only [Layout.setCells, Function.update_of_ne hne]
  exact hfits.unused f hf

theorem frameCell_envPush_of_ne (hfits : Fits s environments L) (hne : f ≠ t ∨ k ≠ name) :
    (s.envPush t name value).frameCell (L.setCells t (s.cellCount :: L.cells t)) f k =
      s.frameCell L f k := by
  have hfresh : s.cellCount ∉ L.cells f := fun hmem =>
    absurd ((hfits.cells_lt f).2 _ hmem) (lt_irrefl _)
  have hold := find?_update_of_not_mem hfresh s.key (some name) k
  unfold Heap.frameCell
  by_cases hf : f = t
  · subst hf
    have hk : ¬ (some name == some k) = true := by
      rw [beq_iff_eq, Option.some.injEq]
      exact fun h => (hne.resolve_left (fun h' => h' rfl)) h.symm
    simp only [Heap.envPush, Layout.setCells, Function.update_self, List.find?_cons, hold, hk]
  · simp only [Heap.envPush, Layout.setCells, Function.update_of_ne hf, hold]

theorem frameCell_envPush_self (hrenames : L.renames t = []) :
    (s.envPush t name value).frameCell (L.setCells t (s.cellCount :: L.cells t)) t name =
      some s.cellCount := by
  unfold Heap.frameCell
  simp [Heap.envPush, Layout.setCells, hrenames]

/-! ## Renames -/

omit [DecidableEq Name] in
theorem fits_envRename (hfits : Fits s environments L) :
    Fits (s.envRename t name cell) environments (L.setRenames t (s.renameCount :: L.renames t)) :=
  { hfits with
    renames := chain_push hfits.renames_lt hfits.renames t
    renames_lt := descending_push hfits.renames_lt t }

theorem map_renameCell_envRename {l : List ℕ} (hfresh : s.renameCount ∉ l) (t cell : ℕ)
    (name k : Name) :
    (l.find? fun r => (s.envRename t name cell).renameKey r == some k).map
        (s.envRename t name cell).renameCell =
      (l.find? fun r => s.renameKey r == some k).map s.renameCell := by
  have hold := find?_update_of_not_mem hfresh s.renameKey (some name) k
  simp only [Heap.envRename, hold]
  refine Option.map_congr fun r hr => Function.update_of_ne ?_ _ _
  rintro rfl
  exact hfresh (List.mem_of_find?_eq_some hr)

theorem frameCell_envRename_of_ne (hfits : Fits s environments L) (hne : f ≠ t ∨ k ≠ name) :
    (s.envRename t name cell).frameCell (L.setRenames t (s.renameCount :: L.renames t)) f k =
      s.frameCell L f k := by
  have hfresh : s.renameCount ∉ L.renames f := fun hmem =>
    absurd ((hfits.renames_lt f).2 _ hmem) (lt_irrefl _)
  have hold := map_renameCell_envRename hfresh t cell name k
  unfold Heap.frameCell
  by_cases hf : f = t
  · subst hf
    have hk : ((s.envRename f name cell).renameKey s.renameCount == some k) = false := by
      simp only [Heap.envRename, Function.update_self, beq_eq_false_iff_ne, ne_eq, Option.some.injEq]
      exact fun h => (hne.resolve_left (fun h' => h' rfl)) h.symm
    simp only [Layout.setRenames, Function.update_self, List.find?_cons, hk, hold]
    rfl
  · simp only [Layout.setRenames, Function.update_of_ne hf, hold]
    rfl

theorem frameCell_envRename_self :
    (s.envRename t name cell).frameCell (L.setRenames t (s.renameCount :: L.renames t)) t name =
      some cell := by
  unfold Heap.frameCell
  simp [Heap.envRename, Layout.setRenames]

/-! ## Sharing the lists of a frame -/

omit [DecidableEq Name] in
theorem fits_importAll (hfits : Fits s environments L) {source : ℕ} (ht : t ∈ environments) :
    Fits (s.importAll t source) environments
      ((L.setCells t (L.cells source)).setRenames t (L.renames source)) := by
  refine { hfits with
    cells := chain_replace hfits.cells t (hfits.cells source)
    cells_lt := descending_replace hfits.cells_lt t (hfits.cells_lt source)
    renames := chain_replace hfits.renames t (hfits.renames source)
    renames_lt := descending_replace hfits.renames_lt t (hfits.renames_lt source)
    unused := fun f hf => ?_ }
  have hlt := hfits.lt ht
  have hf : s.frameCount ≤ f := hf
  have hne : f ≠ t := by omega
  simpa [Layout.setCells, Layout.setRenames, hne] using hfits.unused f hf

theorem frameCell_importAll_self {source : ℕ} :
    (s.importAll t source).frameCell
        ((L.setCells t (L.cells source)).setRenames t (L.renames source)) t k =
      s.frameCell L source k := by
  simp [Heap.frameCell, Heap.importAll, Layout.setCells, Layout.setRenames]

theorem frameCell_importAll_of_ne {source : ℕ} (hne : f ≠ t) :
    (s.importAll t source).frameCell
        ((L.setCells t (L.cells source)).setRenames t (L.renames source)) f k =
      s.frameCell L f k := by
  simp [Heap.frameCell, Heap.importAll, Layout.setCells, Layout.setRenames, hne]

/-! ## Values -/

omit [DecidableEq Name] in
theorem fits_setValue (hfits : Fits s environments L) :
    Fits (s.setValue cell value) environments L :=
  { hfits with }

/-! ## Unlinking -/

/-- The cell in front of the one with the name. -/
def cellBefore (s : Heap Name Val) (cells : List ℕ) (name : Name) : Option ℕ :=
  if cells.any fun c => s.key c == some name then
    (cells.takeWhile fun c => !(s.key c == some name)).getLast?
  else none

theorem eraseP_eq (here : ℕ → Bool) {l before after : List ℕ} {c : ℕ} (hsplit : l = before ++ c :: after)
    (hbefore : ∀ b ∈ before, here b = false) (hc : here c = true) :
    l.eraseP here = before ++ after ∧ (l.takeWhile fun c => !here c) = before ∧
      (l.dropWhile fun c => !here c) = c :: after := by
  subst hsplit
  induction before with
  | nil => simp [hc]
  | cons b before ih =>
    obtain ⟨h₁, h₂, h₃⟩ := ih fun b hb => hbefore b (List.mem_cons_of_mem _ hb)
    have hb := hbefore b List.mem_cons_self
    refine ⟨?_, ?_, ?_⟩
    · rw [List.cons_append, List.eraseP_cons_of_neg (by rw [hb]; decide), h₁, List.cons_append]
    · rw [List.cons_append, List.takeWhile_cons, hb, h₂]
      rfl
    · rw [List.cons_append, List.dropWhile_cons, hb]
      exact h₃

omit [DecidableEq Name] in
theorem Fits.relink (hfits : Fits s environments L) (ht : t ∈ environments)
    {next bindings : ℕ → Link ℕ Unit} {cells : List ℕ}
    (hother : ∀ f ≠ t, Chain next (bindings f) (L.cells f) (.stop ()))
    (hself : Chain next (bindings t) cells (.stop ())) (hcells : Descending s.cellCount cells) :
    Fits { s with next, bindings } environments (L.setCells t cells) := by
  refine { hfits with cells := ?_, cells_lt := ?_, unused := ?_ }
  · intro f
    by_cases hf : f = t
    · subst hf
      simpa [Layout.setCells] using hself
    · simpa [Layout.setCells, hf] using hother f hf
  · intro f
    by_cases hf : f = t
    · subst hf
      simpa [Layout.setCells] using hcells
    · simpa [Layout.setCells, hf] using hfits.cells_lt f
  · intro f hf
    have hlt := hfits.lt ht
    have hf : s.frameCount ≤ f := hf
    have hne : f ≠ t := by omega
    simpa [Layout.setCells, hne] using hfits.unused f hf

theorem fits_envUndefine (hfits : Fits s environments L) (ht : t ∈ environments)
    (hsafe : ∀ p, cellBefore s (L.cells t) name = some p → ∀ f ≠ t, p ∉ L.cells f) :
    ∃ next bindings, s.envUndefine t name = some { s with next, bindings } ∧
      Fits { s with next, bindings } environments
        (L.setCells t ((L.cells t).eraseP fun c => s.key c == some name)) := by
  have hscan := @scan_spec _ _ _ _ _ (fun c => s.key c == some name) _ (hfits.cells t) _
    (Nat.lt_succ_of_le (hfits.cells_lt t).length_le) none
  have hdescending := hfits.cells_lt t
  have hchain := hfits.cells t
  have hnodup : (L.cells t).Nodup := hdescending.1.imp fun hlt => ne_of_gt hlt
  unfold Heap.envUndefine
  by_cases hany : ∃ c ∈ L.cells t, (s.key c == some name) = true
  · have herase : Descending s.cellCount ((L.cells t).eraseP fun c => s.key c == some name) :=
      ⟨hdescending.1.sublist List.eraseP_sublist, fun c hc =>
        hdescending.2 c (List.mem_of_mem_eraseP hc)⟩
    obtain ⟨d, hd, hhere⟩ := hany
    obtain ⟨c, before, after, hbefore, hc, hsplit, -⟩ :=
      List.exists_of_eraseP (p := fun c => s.key c == some name) hd hhere
    have hbefore : ∀ b ∈ before, (s.key b == some name) = false := fun b hb =>
      by simpa using hbefore b hb
    obtain ⟨heq, htake, hdrop⟩ := eraseP_eq (fun c => s.key c == some name) hsplit hbefore hc
    rw [hscan, htake, hdrop, heq]
    rw [heq] at herase
    rcases List.eq_nil_or_concat' before with rfl | ⟨before', p, rfl⟩
    · -- the cell is the first one of the list
      refine ⟨s.next, Function.update s.bindings t (s.next c), rfl, ?_⟩
      rw [hsplit] at hchain
      refine hfits.relink ht (fun f hf => ?_) ?_ herase
      · rw [Function.update_of_ne hf]
        exact hfits.cells f
      · rw [Function.update_self]
        exact hchain.2
    · have hlast : (before' ++ [p]).getLast? = some p := List.getLast?_concat
      have hbeforeCell : cellBefore s (L.cells t) name = some p := by
        unfold cellBefore
        rw [if_pos (List.any_eq_true.mpr ⟨d, hd, hhere⟩), htake, hlast]
      rw [hlast]
      refine ⟨Function.update s.next p (s.next c), s.bindings, rfl, ?_⟩
      refine hfits.relink ht (fun f hf => ?_) ?_ herase
      · exact (hfits.cells f).update (hsafe p hbeforeCell f hf) _
      · rw [hsplit] at hchain hnodup
        exact hchain.unlink hnodup
  · -- no cell has the name
    have hnone : ∀ c ∈ L.cells t, ¬ (s.key c == some name) = true := fun c hc h => hany ⟨c, hc, h⟩
    have herase : ((L.cells t).eraseP fun c => s.key c == some name) = L.cells t :=
      List.eraseP_of_forall_not hnone
    have hdrop : ((L.cells t).dropWhile fun c => !(s.key c == some name)) = [] := by
      rw [List.dropWhile_eq_nil_iff]
      intro c hc
      simpa using hnone c hc
    rw [hscan, hdrop, herase]
    refine ⟨s.next, s.bindings, ?_, ?_⟩
    · cases ((L.cells t).takeWhile fun c => !(s.key c == some name)).getLast?.or none <;> rfl
    exact hfits.relink ht (fun f _ => hfits.cells f) hchain hdescending

theorem find?_eraseP_of_ne {l : List ℕ} (hne : k ≠ name) :
    ((l.eraseP fun c => s.key c == some name).find? fun c => s.key c == some k) =
      l.find? fun c => s.key c == some k := by
  induction l with
  | nil => rfl
  | cons c l ih =>
    by_cases hc : (s.key c == some name) = true
    · have hk : (s.key c == some k) = false := by
        rw [beq_iff_eq] at hc
        rw [hc, beq_eq_false_iff_ne, ne_eq, Option.some.injEq]
        exact Ne.symm hne
      rw [List.eraseP_cons_of_pos (p := fun c => s.key c == some name) hc, List.find?_cons, hk]
    · rw [List.eraseP_cons_of_neg (p := fun c => s.key c == some name) hc, List.find?_cons,
        List.find?_cons, ih]

theorem frameCell_envUndefine_of_ne {next bindings : ℕ → Link ℕ Unit} (hne : f ≠ t ∨ k ≠ name) :
    ({ s with next, bindings } : Heap Name Val).frameCell
        (L.setCells t ((L.cells t).eraseP fun c => s.key c == some name)) f k =
      s.frameCell L f k := by
  unfold Heap.frameCell
  by_cases hf : f = t
  · subst hf
    have hold := find?_eraseP_of_ne (s := s) (l := L.cells f)
      (hne.resolve_left fun h => h rfl)
    simp only [Layout.setCells, Function.update_self, hold]
  · simp only [Layout.setCells, Function.update_of_ne hf]

/-! ## A new environment -/

namespace Layout

/-- A new frame under which lies the way of its parent. -/
def add (L : Layout) (e : ℕ) (rest : List ℕ) : Layout where
  cells := L.cells
  renames := Function.update L.renames e []
  body := Function.update L.body e []
  path := Function.update L.path e (e :: rest)

end Layout

omit [DecidableEq Name] in
theorem fits_makeEnv (hfits : Fits s environments L) {parent : Option ℕ}
    (hparent : ∀ p ∈ parent, p ∈ environments) :
    Fits (s.makeEnv (parent.elim (.stop ()) .cell)) (environments ++ [s.frameCount])
      (L.add s.frameCount (parent.elim [] L.path)) := by
  have hold : ∀ {e}, e ∈ environments → e ≠ s.frameCount := fun he => by
    have hlt := hfits.lt he
    omega
  have hrest : ∀ f ∈ parent.elim [] L.path, f < s.frameCount := by
    cases parent with
    | none => exact fun f hf => absurd hf List.not_mem_nil
    | some p => exact hfits.path_lt p (hparent p rfl)
  -- the new frame stands in no path yet
  have hfresh : s.frameCount ∉ parent.elim [] L.path := fun hmem =>
    absurd (hrest _ hmem) (lt_irrefl _)
  have hmem : ∀ {e}, e ∈ environments ++ [s.frameCount] → e ∈ environments ∨ e = s.frameCount :=
    fun he => by simpa using he
  constructor
  · intro f
    by_cases hf : f = s.frameCount
    · subst hf
      simp [Heap.makeEnv, Layout.add, hfits.unused _ (le_refl _)]
    · simpa [Heap.makeEnv, Layout.add, hf] using hfits.cells f
  · exact hfits.cells_lt
  · intro f
    by_cases hf : f = s.frameCount
    · subst hf
      simp [Heap.makeEnv, Layout.add]
    · simpa [Heap.makeEnv, Layout.add, hf] using hfits.renames f
  · intro f
    by_cases hf : f = s.frameCount
    · subst hf
      simp [Layout.add, Descending]
    · simpa [Heap.makeEnv, Layout.add, hf] using hfits.renames_lt f
  · intro e he
    rcases hmem he with he | rfl
    · have hnot : s.frameCount ∉ L.path e := fun h => absurd (hfits.path_lt e he _ h) (lt_irrefl _)
      simpa [Heap.makeEnv, Layout.add, hold he] using (hfits.path e he).update hnot _
    · simp only [Heap.makeEnv, Layout.add, Function.update_self, Linked.chain_cons, true_and]
      cases parent with
      | none => rfl
      | some p => exact (hfits.path p (hparent p rfl)).update hfresh _
  · intro e he
    rcases hmem he with he | rfl
    · simpa [Layout.add, hold he] using hfits.nodup e he
    · simp only [Layout.add, Function.update_self, List.nodup_cons]
      refine ⟨hfresh, ?_⟩
      cases parent with
      | none => exact List.nodup_nil
      | some p => exact hfits.nodup p (hparent p rfl)
  · intro e he f hf
    show f < s.frameCount + 1
    rcases hmem he with he | rfl
    · simp only [Layout.add, Function.update_of_ne (hold he)] at hf
      exact Nat.lt_succ_of_lt (hfits.path_lt e he f hf)
    · simp only [Layout.add, Function.update_self, List.mem_cons] at hf
      rcases hf with rfl | hf
      · exact Nat.lt_succ_self _
      · exact Nat.lt_succ_of_lt (hrest f hf)
  · intro e he
    rcases hmem he with he | rfl
    · simpa [Layout.add, hold he] using hfits.body e he
    · exact ⟨parent.elim [] L.path, by simp [Layout.add]⟩
  · intro e he e' he'
    rcases hmem he with he | rfl
    · simp only [Layout.add, Function.update_of_ne (hold he)]
      rcases hmem he' with he' | rfl
      · exact hfits.separate e he e' he'
      · intro hbody
        obtain ⟨rest, hpath⟩ := hfits.body e he
        have hlt := hfits.path_lt e he s.frameCount (by rw [hpath]; simp [hbody])
        exact lt_irrefl _ hlt
    · simp [Layout.add]
  · intro e he
    rcases hmem he with he | rfl
    · simpa [Heap.makeEnv, hold he] using hfits.global e he
    · simp [Heap.makeEnv]
  · intro f hf
    have hf : s.frameCount + 1 ≤ f := hf
    exact hfits.unused f (by omega)

theorem frameCell_makeEnv {parent : Link ℕ Unit} {rest : List ℕ} (hf : f < s.frameCount) :
    (s.makeEnv parent).frameCell (L.add s.frameCount rest) f k = s.frameCell L f k := by
  have hne : f ≠ s.frameCount := by omega
  simp [Heap.frameCell, Heap.makeEnv, Layout.add, hne]

end ChibiScheme.Env
