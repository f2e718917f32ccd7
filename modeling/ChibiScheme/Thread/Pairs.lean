import Mathlib.Data.List.Range
import Mathlib.Data.List.Perm.Subperm
import ChibiScheme.Thread.Scheduler

/-!
# The pairs of the queues

`Cells` says which pairs make up the run queue and the paused list: no pair is in both or in one of
them twice, the queue ends at the pair in `SEXP_G_THREADS_BACK`, and the list in the mark it started
with.  Each way in which the source relinks the pairs keeps it.
-/

namespace ChibiScheme.Thread

open Linked List Function

/-- The last pair of a list. -/
def lastLink (cells : List ℕ) : Pointer :=
  match cells.getLast? with
  | some c => .cell c
  | none => null

@[simp] theorem lastLink_nil : lastLink [] = null := rfl

@[simp] theorem lastLink_concat (cells : List ℕ) (c : ℕ) : lastLink (cells ++ [c]) = .cell c := by
  simp [lastLink]

namespace World

variable {V : Type}

/-- The pairs of both queues, in order. -/
structure Cells (e : Tail) (w : World V) (rc pc : List ℕ) : Prop where
  run : Chain w.cdr w.front rc null
  back : w.back = lastLink rc
  paused : Chain w.cdr w.paused pc (.stop e)
  nodup : (rc ++ pc).Nodup
  old : ∀ c ∈ rc ++ pc, c < w.cells

variable {e : Tail} {w : World V} {rc pc before after : List ℕ} {c : ℕ} {t : ThreadId}

namespace Cells

variable (hcells : Cells e w rc pc)
include hcells

theorem disjoint (hc : c ∈ rc) : c ∉ pc := fun hmem =>
  (nodup_append.mp hcells.nodup).2.2 c hc c hmem rfl

theorem nodup_run : rc.Nodup := (nodup_append.mp hcells.nodup).1

theorem nodup_paused : pc.Nodup :=
  (nodup_append.mp hcells.nodup).2.1

theorem length_lt_fuel : pc.length < w.fuel := by
  have hsub : pc ⊆ List.range w.cells := fun c hc =>
    mem_range.mpr (hcells.old c (mem_append_right rc hc))
  have hle := (hcells.nodup_paused.subperm hsub).length_le
  rw [length_range] at hle
  exact Nat.lt_succ_of_le hle

theorem run_length_lt_fuel : rc.length < w.fuel := by
  have hsub : rc ⊆ List.range w.cells := fun c hc =>
    mem_range.mpr (hcells.old c (mem_append_left pc hc))
  have hle := (hcells.nodup_run.subperm hsub).length_le
  rw [length_range] at hle
  exact Nat.lt_succ_of_le hle

theorem front_eq : w.front = headLink rc null := hcells.run.head_eq

theorem paused_eq : w.paused = headLink pc (.stop e) :=
  hcells.paused.head_eq

/-! ### Changes that concern no link of the queues -/

theorem onGlobals (f : Globals V → Globals V) :
    Cells e (w.onGlobals f) rc pc :=
  { hcells with }

theorem setThread (t : ThreadId) (f : Context V → Context V) :
    Cells e (w.setThread t f) rc pc :=
  hcells.onGlobals _

theorem setCdr (hnot : c ∉ rc ++ pc) (link : Pointer) :
    Cells e (w.setCdr c link) rc pc := by
  rw [mem_append, not_or] at hnot
  exact ⟨hcells.run.update hnot.1 link, hcells.back, hcells.paused.update hnot.2 link,
    hcells.nodup, hcells.old⟩

theorem new_not_mem : w.cells ∉ rc ++ pc := fun hmem =>
  lt_irrefl _ (hcells.old _ hmem)

theorem sexpCons (t : ThreadId) (link : Pointer) :
    Cells e (w.sexpCons t link).2 rc pc := by
  have hnot := hcells.new_not_mem
  rw [mem_append, not_or] at hnot
  exact ⟨hcells.run.update hnot.1 link, hcells.back, hcells.paused.update hnot.2 link,
    hcells.nodup, fun c hc => Nat.lt_succ_of_lt (hcells.old c hc)⟩

/-! ### The run queue -/

theorem pushBack (hnot : c ∉ rc ++ pc) (hold : c < w.cells)
    (hnull : w.cdr c = null) : Cells e (w.pushBack c) (rc ++ [c]) pc := by
  have hnodup : (rc ++ [c] ++ pc).Nodup := by
    rw [append_assoc, singleton_append]
    exact nodup_middle.mpr (nodup_cons.mpr ⟨hnot, hcells.nodup⟩)
  have hold' : ∀ d ∈ rc ++ [c] ++ pc, d < w.cells := by
    intro d hd
    simp only [mem_append, mem_singleton] at hd
    rcases hd with (hd | rfl) | hd
    · exact hcells.old d (mem_append_left _ hd)
    · exact hold
    · exact hcells.old d (mem_append_right _ hd)
  rw [mem_append, not_or] at hnot
  rcases eq_nil_or_concat rc with rfl | ⟨init, last, hrc⟩
  · have hback : w.back = null := hcells.back
    unfold World.pushBack
    simp only [hback, null]
    exact ⟨⟨rfl, hnull⟩, rfl, hcells.paused, hnodup, hold'⟩
  · rw [concat_eq_append] at hrc
    subst hrc
    have hback : w.back = .cell last := by rw [hcells.back, lastLink_concat]
    have hlast : last ∉ init := fun hmem => by
      have hrun := hcells.nodup_run
      rw [nodup_append] at hrun
      exact hrun.2.2 last hmem last (mem_singleton_self _) rfl
    have hne : c ≠ last := fun heq => hnot.1 (by simp [heq])
    have hpaused : last ∉ pc := hcells.disjoint (by simp)
    unfold World.pushBack
    simp only [hback]
    refine ⟨?_, ?_, hcells.paused.update hpaused _, hnodup, hold'⟩
    · refine chain_concat.mpr ⟨?_, ?_⟩
      · exact hcells.run.relink hlast _
      · show Function.update w.cdr last (.cell c) c = null
        rw [update_of_ne hne, hnull]
    · exact (lastLink_concat _ _).symm

theorem pushFront (hnot : c ∉ rc ++ pc) (hold : c < w.cells) :
    Cells e (w.pushFront c) (c :: rc) pc := by
  have hnodup : (c :: rc ++ pc).Nodup := nodup_cons.mpr ⟨hnot, hcells.nodup⟩
  have hold' : ∀ d ∈ c :: rc ++ pc, d < w.cells := by
    intro d hd
    rcases mem_cons.mp hd with rfl | hd
    · exact hold
    · exact hcells.old d hd
  rw [mem_append, not_or] at hnot
  have hlink : Function.update w.cdr c w.front c = w.front := update_self _ _ _
  have hrun : Chain (Function.update w.cdr c w.front) (.cell c) (c :: rc) null := by
    refine ⟨rfl, ?_⟩
    rw [hlink]
    exact hcells.run.update hnot.1 _
  have hpaused := hcells.paused.update hnot.2 w.front
  unfold World.pushFront
  cases rc with
  | nil =>
    have hfront : w.front = null := hcells.run
    simp only [hfront, null] at hrun hpaused ⊢
    exact ⟨hrun, rfl, hpaused, hnodup, hold'⟩
  | cons d rest =>
    have hfront : w.front = .cell d := hcells.run.1
    simp only [hfront] at hrun hpaused ⊢
    refine ⟨hrun, ?_, hpaused, hnodup, hold'⟩
    show w.back = _
    rw [hcells.back]
    simp [lastLink]

omit hcells

/-! ### The paused list -/

theorem unlink (hcells : Cells e w rc (before ++ c :: after)) :
    Cells e (w.setPausedAfter before.getLast? (w.cdr c)) rc (before ++ after) := by
  have hnodup : (rc ++ (before ++ after)).Nodup := by
    refine hcells.nodup.sublist ?_
    exact List.Sublist.append_left (List.Sublist.append_left (sublist_cons_self c after) _) _
  have hold : ∀ d ∈ rc ++ (before ++ after), d < w.cells := by
    intro d hd
    refine hcells.old d ?_
    simp only [mem_append, mem_cons] at hd ⊢
    rcases hd with hd | hd | hd <;> simp [hd]
  rcases eq_nil_or_concat before with rfl | ⟨init, prev, hbefore⟩
  · exact ⟨hcells.run, hcells.back, hcells.paused.2, hnodup, hold⟩
  rw [concat_eq_append] at hbefore
  subst hbefore
  have hprev : prev ∉ rc := fun hmem => hcells.disjoint hmem (by simp)
  simp only [getLast?_append, getLast?_singleton, Option.some_or]
  exact ⟨hcells.run.update hprev _, hcells.back,
    hcells.paused.unlink hcells.nodup_paused, hnodup, hold⟩

theorem unlinked (hcells : Cells e w rc (before ++ c :: after)) :
    c ∉ rc ++ (before ++ after) ∧ c < w.cells := by
  refine ⟨?_, hcells.old c (by simp)⟩
  have hnodup := hcells.nodup
  rw [← append_assoc] at hnodup
  have hmiddle := (nodup_cons.mp (nodup_middle.mp hnodup)).1
  rwa [append_assoc] at hmiddle

theorem insert (hcells : Cells e w rc (before ++ after)) (t : ThreadId) :
    Cells e ((w.sexpCons t (headLink after (.stop e))).2.setPausedAfter before.getLast?
      (.cell w.cells)) rc (before ++ w.cells :: after) := by
  have hnot := hcells.new_not_mem
  have hnodup : (rc ++ (before ++ w.cells :: after)).Nodup := by
    rw [← append_assoc] at hnot ⊢
    have hnodup := hcells.nodup
    rw [← append_assoc] at hnodup
    exact nodup_middle.mpr (nodup_cons.mpr ⟨hnot, hnodup⟩)
  have hold : ∀ d ∈ rc ++ (before ++ w.cells :: after), d < w.cells + 1 := by
    intro d hd
    by_cases heq : d = w.cells
    · rw [heq]
      exact Nat.lt_succ_self _
    · refine Nat.lt_succ_of_lt (hcells.old d ?_)
      simp only [mem_append, mem_cons, heq, false_or] at hd ⊢
      exact hd
  rw [mem_append, not_or] at hnot
  rcases eq_nil_or_concat before with rfl | ⟨init, prev, hbefore⟩
  · refine ⟨hcells.run.update hnot.1 _, hcells.back, ⟨rfl, ?_⟩, hnodup, hold⟩
    show Chain _ (Function.update w.cdr w.cells _ w.cells) _ _
    have hpaused : w.paused = headLink after (.stop e) := hcells.paused_eq
    rw [update_self, ← hpaused]
    exact hcells.paused.update hnot.2 _
  · rw [concat_eq_append] at hbefore
    subst hbefore
    have hprev : prev ∉ rc := fun hmem => hcells.disjoint hmem (by simp)
    simp only [getLast?_append, getLast?_singleton, Option.some_or]
    exact ⟨(hcells.run.update hnot.1 _).update hprev _, hcells.back,
      hcells.paused.insert hcells.nodup_paused hnot.2, hnodup, hold⟩

theorem scanPaused (hcells : Cells e w rc pc) (here : ThreadId → Bool) :
    w.scanPaused here = some ((pc.takeWhile fun c => !here (w.car c)).getLast?,
      headLink (pc.dropWhile fun c => !here (w.car c)) (.stop e)) := by
  unfold World.scanPaused
  rw [scan_spec hcells.paused hcells.length_lt_fuel]
  simp

/-! ### The scheduler -/

theorem splice {last : ℕ} (hcells : Cells e w rc (before ++ [last] ++ after)) :
    Cells e (w.splice last (headLink after (.stop e))) (rc ++ (before ++ [last])) after := by
  have hnodup : (rc ++ (before ++ [last]) ++ after).Nodup := by
    rw [append_assoc]
    exact hcells.nodup
  have hold : ∀ d ∈ rc ++ (before ++ [last]) ++ after, d < w.cells := by
    rw [append_assoc]
    exact hcells.old
  obtain ⟨htaken, hafter⟩ := chain_append.mp hcells.paused
  have hpaused := hcells.nodup_paused
  have hlast : last ∉ before := by
    have hsub := (nodup_append.mp hpaused).1
    rw [nodup_append] at hsub
    exact fun hmem => hsub.2.2 last hmem last (mem_singleton_self _) rfl
  have hlastafter : last ∉ after := fun hmem =>
    (nodup_append.mp hpaused).2.2 last (by simp) last hmem rfl
  have hlastrun : last ∉ rc := fun hmem => hcells.disjoint hmem (by simp)
  have htaken' := htaken.relink hlast null
  have hafter' := hafter.update hlastafter null
  rcases eq_nil_or_concat rc with rfl | ⟨init, back, hrc⟩
  · have hback : w.back = null := hcells.back
    unfold World.splice World.setCdr
    simp only [hback, null]
    exact ⟨htaken', (lastLink_concat _ _).symm, hafter', hnodup, hold⟩
  · rw [concat_eq_append] at hrc
    subst hrc
    have hback : w.back = .cell back := by rw [hcells.back, lastLink_concat]
    have hbackinit : back ∉ init := fun hmem => by
      have hrun := hcells.nodup_run
      rw [nodup_append] at hrun
      exact hrun.2.2 back hmem back (mem_singleton_self _) rfl
    have hbackpaused : back ∉ before ++ [last] ++ after := hcells.disjoint (by simp)
    rw [mem_append, not_or] at hbackpaused
    have hstart : w.paused = headLink (before ++ [last]) null := htaken'.head_eq
    unfold World.splice World.setCdr
    simp only [hback]
    refine ⟨?_, ?_, hafter'.update hbackpaused.2 _, hnodup, hold⟩
    · refine chain_append.mpr ⟨?_, ?_⟩
      · rw [← hstart]
        exact (hcells.run.update hlastrun null).relink hbackinit _
      · rw [← hstart]
        exact htaken'.update hbackpaused.1 _
    · rw [← append_assoc]
      exact (lastLink_concat _ _).symm

theorem popFront {front : ℕ} (hcells : Cells e w (front :: rc) pc) :
    Cells e (w.popFront front) rc pc := by
  have hnodup : (rc ++ pc).Nodup := (nodup_cons.mp hcells.nodup).2
  have hold : ∀ d ∈ rc ++ pc, d < w.cells := fun d hd =>
    hcells.old d (mem_cons_of_mem front hd)
  have hrun := hcells.run.2
  unfold World.popFront
  cases rc with
  | nil =>
    have hnext : w.cdr front = null := hrun
    simp only [hnext, null]
    exact ⟨rfl, rfl, hcells.paused, hnodup, hold⟩
  | cons d rest =>
    have hnext : w.cdr front = .cell d := hrun.1
    simp only [hnext]
    refine ⟨⟨rfl, hrun.2⟩, ?_, hcells.paused, hnodup, hold⟩
    show w.back = _
    rw [hcells.back]
    simp [lastLink]

theorem rotate_eq {front back : ℕ} {ctx : ThreadId} (hback : w.back = .cell back) :
    w.rotate ctx front = some { w with
      car := Function.update w.car front ctx
      cdr := Function.update (Function.update w.cdr back (.cell front)) front null
      front := Function.update w.cdr back (.cell front) front
      back := .cell front } := by
  simp [World.rotate, hback, World.setCar, World.setCdr]

theorem rotate {front : ℕ} (ctx : ThreadId) (hcells : Cells e w (front :: rc) pc) :
    ∃ w', w.rotate ctx front = some w' ∧ Cells e w' (rc ++ [front]) pc ∧
      w'.toGlobals = w.toGlobals ∧ w'.car = Function.update w.car front ctx := by
  have hnodup : (rc ++ [front] ++ pc).Nodup := by
    rw [append_assoc, singleton_append]
    exact nodup_middle.mpr hcells.nodup
  have hold : ∀ d ∈ rc ++ [front] ++ pc, d < w.cells := by
    intro d hd
    refine hcells.old d ?_
    simp only [mem_append, mem_cons, not_mem_nil, or_false] at hd ⊢
    rcases hd with (hd | hd) | hd <;> simp [hd]
  have hpausedfront : front ∉ pc := hcells.disjoint mem_cons_self
  rcases eq_nil_or_concat rc with rfl | ⟨init, back, hrc⟩
  · have hback : w.back = .cell front := hcells.back
    refine ⟨_, rotate_eq hback, ?_, rfl, rfl⟩
    have hpaused := (hcells.paused.update hpausedfront (.cell front)).update hpausedfront null
    refine ⟨⟨?_, ?_⟩, rfl, hpaused, hnodup, hold⟩
    · exact update_self _ _ _
    · exact update_self _ _ _
  · rw [concat_eq_append] at hrc
    subst hrc
    have hback : w.back = .cell back := by
      rw [hcells.back, ← cons_append, lastLink_concat]
    have hrun : (front :: (init ++ [back])).Nodup := hcells.nodup_run
    rw [nodup_cons, nodup_append] at hrun
    have hne : front ≠ back := fun heq => hrun.1 (by simp [heq])
    have hbackinit : back ∉ init := fun hmem =>
      hrun.2.2.2 back hmem back (mem_singleton_self _) rfl
    have hpausedback : back ∉ pc := hcells.disjoint (by simp)
    have hpaused := (hcells.paused.update hpausedback (.cell front)).update hpausedfront null
    refine ⟨_, rotate_eq hback, ?_, rfl, rfl⟩
    refine ⟨?_, ?_, hpaused, hnodup, hold⟩
    · refine chain_concat.mpr ⟨?_, update_self _ _ _⟩
      have hfront : Function.update w.cdr back (.cell front) front = w.cdr front :=
        update_of_ne hne _ _
      show Chain _ (Function.update w.cdr back (.cell front) front) _ _
      rw [hfront]
      exact (hcells.run.2.relink hbackinit _).update hrun.1 _
    · exact (lastLink_concat _ _).symm

end Cells

end World

end ChibiScheme.Thread
