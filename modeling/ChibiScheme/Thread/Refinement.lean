import Mathlib.Data.List.TakeWhile
import ChibiScheme.Thread.Pairs
import ChibiScheme.Thread.Queues

/-!
# The pairs represent lists

Every operation and every phase of the scheduler, run on the pairs, does to the represented lists
what its counterpart on lists does.  In particular no loop of the source runs forever.
-/

namespace ChibiScheme.Thread

open Linked List Option Function

variable {V : Type} {e : Tail} {w w' : World V} {q : Queues V} {ctx t thread : ThreadId}

/-- The pairs hold the threads of the two lists, and nobody is paused twice. -/
structure Represents (e : Tail) (w : World V) (q : Queues V) : Prop where
  globals : w.toGlobals = q.toGlobals
  cells : ∃ rc pc, w.Cells e rc pc ∧ q.run = rc.map w.car ∧ q.paused = pc.map w.car
  nodup : q.paused.Nodup

/-! ## What relinking leaves alone -/

namespace World

@[simp] theorem setCdr_car (c : ℕ) (link : Pointer) : (w.setCdr c link).car = w.car := rfl

@[simp] theorem setPausedAfter_car (prev : Option ℕ) (link : Pointer) :
    (w.setPausedAfter prev link).car = w.car := by
  cases prev <;> rfl

@[simp] theorem setPausedAfter_toGlobals (prev : Option ℕ) (link : Pointer) :
    (w.setPausedAfter prev link).toGlobals = w.toGlobals := by
  cases prev <;> rfl

@[simp] theorem setPausedAfter_cells (prev : Option ℕ) (link : Pointer) :
    (w.setPausedAfter prev link).cells = w.cells := by
  cases prev <;> rfl

@[simp] theorem pushBack_car (c : ℕ) : (w.pushBack c).car = w.car := by
  unfold pushBack
  split <;> rfl

@[simp] theorem pushBack_toGlobals (c : ℕ) : (w.pushBack c).toGlobals = w.toGlobals := by
  unfold pushBack
  split <;> rfl

@[simp] theorem pushFront_car (c : ℕ) : (w.pushFront c).car = w.car := by
  unfold pushFront
  dsimp only
  split <;> rfl

@[simp] theorem pushFront_toGlobals (c : ℕ) : (w.pushFront c).toGlobals = w.toGlobals := by
  unfold pushFront
  dsimp only
  split <;> rfl

@[simp] theorem splice_car (last : ℕ) (rest : Pointer) : (w.splice last rest).car = w.car := by
  unfold splice
  dsimp only
  split <;> rfl

@[simp] theorem splice_toGlobals (last : ℕ) (rest : Pointer) :
    (w.splice last rest).toGlobals = w.toGlobals := by
  unfold splice
  dsimp only
  split <;> rfl

@[simp] theorem popFront_car (front : ℕ) : (w.popFront front).car = w.car := by
  unfold popFront
  dsimp only
  split <;> rfl

@[simp] theorem popFront_toGlobals (front : ℕ) : (w.popFront front).toGlobals = w.toGlobals := by
  unfold popFront
  dsimp only
  split <;> rfl

theorem sexpCons_map_car {rc pc cells : List ℕ} (hcells : w.Cells e rc pc) (hsub : cells ⊆ rc ++ pc)
    (t : ThreadId) (link : Pointer) :
    cells.map (w.sexpCons t link).2.car = cells.map w.car := by
  refine map_congr_left fun c hc => ?_
  refine update_of_ne ?_ _ _
  rintro rfl
  exact hcells.new_not_mem (hsub hc)

end World

namespace Represents

theorem threads (hrep : Represents e w q) : w.threads = q.threads := by rw [hrep.globals]

theorem onGlobals (hrep : Represents e w q) (f : Globals V → Globals V) :
    Represents e (w.onGlobals f) (q.onGlobals f) := by
  obtain ⟨hglobals, ⟨rc, pc, hcells, hrun, hpaused⟩, hnodup⟩ := hrep
  refine ⟨?_, ⟨rc, pc, hcells.onGlobals f, hrun, hpaused⟩, hnodup⟩
  show f w.toGlobals = f q.toGlobals
  rw [hglobals]

theorem setThread (hrep : Represents e w q) (t : ThreadId) (f : Context V → Context V) :
    Represents e (w.setThread t f) (q.setThread t f) :=
  hrep.onGlobals _

theorem scan_cases {rc pc : List ℕ} (hcells : w.Cells e rc pc) (here : ThreadId → Bool) :
    (w.scanPaused here = some (pc.getLast?, .stop e) ∧ ∀ t ∈ pc.map w.car, here t = false) ∨
    ∃ before c after, pc = before ++ c :: after ∧ here (w.car c) = true ∧
      (∀ t ∈ before.map w.car, here t = false) ∧
      w.scanPaused here = some (before.getLast?, .cell c) := by
  rw [hcells.scanPaused]
  have hsplit := takeWhile_append_dropWhile (p := fun c => !here (w.car c)) (l := pc)
  have hbefore : ∀ t ∈ (pc.takeWhile fun c => !here (w.car c)).map w.car, here t = false := by
    intro t ht
    obtain ⟨c, hc, rfl⟩ := List.mem_map.mp ht
    simpa using mem_takeWhile_imp hc
  cases hdrop : pc.dropWhile fun c => !here (w.car c) with
  | nil =>
    rw [hdrop, append_nil] at hsplit
    rw [hsplit] at hbefore ⊢
    exact .inl ⟨rfl, hbefore⟩
  | cons c after =>
    rw [hdrop] at hsplit
    refine .inr ⟨_, c, after, hsplit.symm, ?_, hbefore, rfl⟩
    have hhead := head?_dropWhile_not (fun c => !here (w.car c)) pc
    rw [hdrop] at hhead
    simpa using hhead

variable (hrep : Represents e w q)
include hrep

theorem pausedMem (x : ThreadId) :
    w.pausedMem x = some (decide (x ∈ q.paused)) := by
  obtain ⟨rc, pc, hcells, hrun, hpaused⟩ := hrep.cells
  unfold World.pausedMem
  rw [hpaused]
  rcases scan_cases hcells fun t => decide (t = x) with ⟨hscan, hnot⟩ |
    ⟨before, c, after, rfl, hhere, -, hscan⟩
  · have hmem : x ∉ pc.map w.car := fun hmem => by simpa using hnot x hmem
    rw [hscan, decide_eq_false hmem]
    rfl
  · have hmem : x ∈ (before ++ c :: after).map w.car := by
      rw [← decide_eq_true_eq.mp hhere]
      simp
    rw [hscan, decide_eq_true hmem]
    rfl

theorem push (t : ThreadId) :
    Represents e ((w.sexpCons t null).2.pushBack w.cells) { q with run := q.run ++ [t] } := by
  obtain ⟨hglobals, ⟨rc, pc, hcells, hrun, hpaused⟩, hnodup⟩ := hrep
  have hpush := (hcells.sexpCons t null).pushBack hcells.new_not_mem (Nat.lt_succ_self _)
    (update_self _ _ _)
  refine ⟨?_, ⟨_, pc, hpush, ?_, ?_⟩, hnodup⟩
  · exact (World.pushBack_toGlobals _).trans hglobals
  · have hcar : (w.sexpCons t null).2.car w.cells = t := update_self _ _ _
    rw [World.pushBack_car, map_append, map_singleton, hcar,
      World.sexpCons_map_car hcells (subset_append_left _ _), ← hrun]
  · rw [World.pushBack_car, World.sexpCons_map_car hcells (subset_append_right _ _), ← hpaused]

theorem start (t : ThreadId) :
    Represents e (w.sexpThreadStart t) (q.start t) :=
  (hrep.setThread t fun c => { c with errorp := false }).push t

theorem delete (x : ThreadId) :
    ∃ w', w.sexpDeleteList x = some (decide (x ∈ q.paused), w') ∧ Represents e w' (q.delete x) := by
  obtain ⟨hglobals, ⟨rc, pc, hcells, hrun, hpaused⟩, hnodup⟩ := hrep
  have hnodup' := hnodup.erase x
  unfold World.sexpDeleteList Queues.delete
  rw [hpaused] at hnodup' ⊢
  rcases scan_cases hcells fun t => decide (t = x) with ⟨hscan, hnot⟩ |
    ⟨before, c, after, rfl, hhere, hbefore, hscan⟩
  · have hmem : x ∉ pc.map w.car := fun hmem => by simpa using hnot x hmem
    refine ⟨w, ?_, hglobals, ⟨rc, pc, hcells, hrun, ?_⟩, hnodup'⟩
    · rw [hscan, decide_eq_false hmem]
      rfl
    · exact erase_of_not_mem hmem
  · have hx : w.car c = x := decide_eq_true_eq.mp hhere
    have hmem : x ∈ (before ++ c :: after).map w.car := by
      rw [← hx]
      simp
    have hnot : x ∉ before.map w.car := fun hmem => by simpa using hbefore x hmem
    refine ⟨_, ?_, ?_, ⟨rc, _, hcells.unlink, ?_, ?_⟩, hnodup'⟩
    · rw [hscan, decide_eq_true hmem]
      rfl
    · exact (World.setPausedAfter_toGlobals _ _).trans hglobals
    · rw [World.setPausedAfter_car]
      exact hrun
    · show ((before ++ c :: after).map w.car).erase x = _
      rw [World.setPausedAfter_car, map_append, map_cons, hx, map_append,
        erase_append_right _ hnot, erase_cons_head]

theorem insertTimed (t : ThreadId) (timeout : Timeout) (now : Timeval) :
    ∃ w', w.sexpInsertTimed t timeout now = some w' ∧
      Represents e w' (q.insertTimed t timeout now) := by
  obtain ⟨w₁, hdelete, hrep₁⟩ := hrep.delete t
  have hdeadline : w₁.deadline timeout now = q.deadline timeout now := by
    rw [hrep₁.globals]
    rfl
  have hrep₂ := hrep₁.setThread t fun c => { c with timeval := q.deadline timeout now }
  generalize hw₂ : w₁.setThread t (fun c => { c with timeval := q.deadline timeout now }) = w₂
    at hrep₂
  generalize hq₂ : (q.delete t).setThread t (fun c => { c with timeval := q.deadline timeout now }) =
    q₂ at hrep₂
  have hnot : t ∉ q₂.paused := by
    rw [← hq₂]
    exact hrep.nodup.not_mem_erase
  obtain ⟨hglobals, ⟨rc, pc, hcells, hrun, hpaused⟩, hnodup⟩ := hrep₂
  let behind := w₂.behind timeout (q.deadline timeout now)
  have hbehind : q₂.behind timeout (q.deadline timeout now) = behind := by
    show q₂.toGlobals.behind _ _ = w₂.toGlobals.behind _ _
    rw [hglobals]
  have hresult : q.insertTimed t timeout now =
      { q₂ with paused := q₂.paused.takeWhile behind ++ t :: q₂.paused.dropWhile behind } := by
    rw [← hbehind, ← hq₂]
    rfl
  have hsplit := takeWhile_append_dropWhile (p := fun c => behind (w₂.car c)) (l := pc)
  have hcells' := hcells
  rw [← hsplit] at hcells'
  have hinsert := hcells'.insert t
  have htake : pc.takeWhile (fun c => behind (w₂.car c)) ⊆ rc ++ pc := fun c hc =>
    mem_append_right _ (takeWhile_subset _ hc)
  have hdrop : pc.dropWhile (fun c => behind (w₂.car c)) ⊆ rc ++ pc := fun c hc =>
    mem_append_right _ (dropWhile_subset _ hc)
  have hcar : ∀ link, (w₂.sexpCons t link).2.car w₂.cells = t := fun link =>
    update_self _ _ _
  rw [hresult]
  refine ⟨_, ?_, ?_, ⟨rc, _, hinsert, ?_, ?_⟩, ?_⟩
  · unfold World.sexpInsertTimed
    simp only [hdelete, bind_eq_bind, bind_some, hdeadline, hw₂, hcells.scanPaused, Bool.not_not]
    rfl
  · rw [World.setPausedAfter_toGlobals]
    exact hglobals
  · rw [World.setPausedAfter_car, World.sexpCons_map_car hcells (subset_append_left _ _)]
    exact hrun
  · show q₂.paused.takeWhile behind ++ t :: q₂.paused.dropWhile behind = _
    rw [World.setPausedAfter_car, map_append, map_cons, World.sexpCons_map_car hcells htake,
      World.sexpCons_map_car hcells hdrop, hcar, hpaused, takeWhile_map, dropWhile_map]
    rfl
  · show (q₂.paused.takeWhile behind ++ t :: q₂.paused.dropWhile behind).Nodup
    rw [nodup_middle, takeWhile_append_dropWhile, nodup_cons]
    exact ⟨hnot, hnodup⟩

theorem block (event : Event) (timeout : Timeout) (now : Timeval) :
    ∃ w', (w.onGlobals fun g => g.wait ctx event).sexpInsertTimed ctx timeout now = some w' ∧
      Represents e w' (q.block ctx event timeout now) :=
  (hrep.onGlobals fun g => g.wait ctx event).insertTimed ctx timeout now

/-! ## Operations -/

theorem terminateOne (ctx t : ThreadId) :
    ∃ w', World.terminateAll ctx [t] w = some w' ∧ Represents e w' (q.terminateOne ctx t) := by
  have hmarked : Represents e
      (if 0 < (w.threads ctx).refuel then
        w.setThread t fun c =>
          { c with errorp := true, result := some w.terminateError, refuel := 0 }
      else w)
      (q.markTerminated ctx t) := by
    unfold Queues.markTerminated
    rw [hrep.threads, hrep.globals]
    split
    · exact hrep.setThread t _
    · exact hrep
  obtain ⟨w', hdelete, hdeleted⟩ := hmarked.delete t
  rw [Queues.terminateOne_eq]
  simp only [World.terminateAll, hdelete, bind_eq_bind, bind_some]
  by_cases hmem : t ∈ (q.markTerminated ctx t).paused
  · simp only [hmem, decide_true, if_true]
    exact ⟨_, rfl, hdeleted.start t⟩
  · simp only [hmem, decide_false, Bool.false_eq_true, if_false]
    refine ⟨_, rfl, ?_⟩
    have hsame : ∀ q' : Queues V, t ∉ q'.paused → q'.delete t = q' := by
      intro q' hnot
      unfold Queues.delete
      rw [erase_of_not_mem hnot]
    rwa [hsame _ hmem] at hdeleted

omit hrep

theorem terminateAll (threads : List ThreadId) (ctx : ThreadId) :
    ∀ {w : World V} {q : Queues V}, Represents e w q →
      ∃ w', World.terminateAll ctx threads w = some w' ∧
        Represents e w' (threads.foldl (fun q t => q.terminateOne ctx t) q) := by
  induction threads with
  | nil =>
    intro w q hrep
    exact ⟨w, rfl, hrep⟩
  | cons t threads ih =>
    intro w q hrep
    obtain ⟨w₁, hone, hrep₁⟩ := hrep.terminateOne ctx t
    obtain ⟨w₂, hrest, hrep₂⟩ := ih hrep₁
    refine ⟨w₂, ?_, hrep₂⟩
    simp only [World.terminateAll] at hone ⊢
    cases hdelete : World.sexpDeleteList _ t with
    | none => simp [hdelete] at hone
    | some result =>
      simp only [hdelete, bind_eq_bind, bind_some, Option.some.injEq] at hone ⊢
      rw [hone]
      exact hrest

variable (hrep : Represents e w q)
include hrep

theorem terminate (ctx t : ThreadId) :
    ∃ w', w.sexpThreadTerminate ctx t = some w' ∧ Represents e w' (q.terminate ctx t) := by
  unfold World.sexpThreadTerminate Queues.terminate
  rw [hrep.threads]
  exact terminateAll _ ctx hrep

theorem join (ctx t : ThreadId) (timeout : Timeout) (now : Timeval) :
    ∃ w', (w.sexpThreadJoin ctx t timeout now).map Prod.snd = some w' ∧
      Represents e w' (q.join ctx t timeout now) := by
  unfold World.sexpThreadJoin Queues.join
  rw [hrep.threads]
  split
  · exact ⟨w, rfl, hrep⟩
  · obtain ⟨w', hblock, hrep'⟩ :=
      (hrep.setThread ctx fun c => { c with timeoutp := false }).block (.thread t) timeout now
    refine ⟨w', ?_, hrep'⟩
    simp [hblock]

theorem sleep (ctx : ThreadId) (timeout : Option Timeout)
    (now : Timeval) :
    ∃ w', w.sexpThreadSleep ctx timeout now = some w' ∧
      Represents e w' (q.sleep ctx timeout now) := by
  cases timeout with
  | none => exact ⟨_, rfl, hrep.setThread ctx _⟩
  | some timeout =>
    have hwait : (w.setThread ctx fun c => { c with waitp := true }).setThread ctx
        (fun c => { c with event := .none }) = w.onGlobals fun g => g.wait ctx .none := by
      unfold World.setThread World.onGlobals Globals.wait Globals.setThread
      simp
    unfold World.sexpThreadSleep Queues.sleep
    dsimp only
    split
    · rw [hwait]
      exact hrep.block .none timeout now
    · exact ⟨_, rfl, hrep.setThread ctx _⟩

theorem lock (ctx : ThreadId) (mutex : ℕ) (timeout : Timeout)
    (owner : Option ThreadId) (now : Timeval) :
    ∃ w', (w.sexpMutexLock ctx mutex timeout owner now).map Prod.snd = some w' ∧
      Represents e w' (q.lock ctx mutex timeout owner now) := by
  unfold World.sexpMutexLock Queues.lock
  rw [hrep.globals]
  split
  · obtain ⟨w', hblock, hrep'⟩ := hrep.block (.mutex mutex) timeout now
    exact ⟨w', by simp [hblock], hrep'⟩
  · exact ⟨_, rfl, hrep.onGlobals fun g => g.setMutex mutex ⟨true, owner⟩⟩

theorem wakeFirst (event : Event) :
    ∃ w', w.wakeFirst event = some ((q.wakeFirst event).1, w') ∧
      Represents e w' (q.wakeFirst event).2 := by
  have hthreads := hrep.threads
  obtain ⟨hglobals, ⟨rc, pc, hcells, hrun, hpaused⟩, hnodup⟩ := hrep
  unfold World.wakeFirst Queues.wakeFirst
  rw [hthreads]
  rcases scan_cases hcells fun t => decide ((q.threads t).event = event) with ⟨hscan, hnot⟩ |
    ⟨before, c, after, rfl, hhere, hbefore, hscan⟩
  · have hfind : q.paused.find? (fun t => decide ((q.threads t).event = event)) = none := by
      rw [hpaused, find?_eq_none]
      intro t ht
      simpa using hnot t ht
    simp only [hscan, hfind, bind_eq_bind, bind_some]
    exact ⟨w, rfl, hglobals, ⟨rc, pc, hcells, hrun, hpaused⟩, hnodup⟩
  · have hfind : q.paused.find? (fun t => decide ((q.threads t).event = event)) =
        some (w.car c) := by
      rw [hpaused, map_append, map_cons, find?_append, find?_cons, hhere]
      rw [find?_eq_none.mpr fun t ht => by simpa using hbefore t ht]
      rfl
    have hnotin : w.car c ∉ before.map w.car := fun hmem => by
      rw [hbefore _ hmem] at hhere
      cases hhere
    simp only [hscan, hfind, bind_eq_bind, bind_some]
    obtain ⟨hloose, hold⟩ := hcells.unlinked
    have hpush := (hcells.unlink.pushFront hloose (by rwa [World.setPausedAfter_cells])).setThread
      (w.car c) Context.wake
    refine ⟨_, rfl, ?_, ⟨c :: rc, _, hpush, ?_, ?_⟩, hnodup.erase _⟩
    · show Globals.setThread (World.toGlobals _) (w.car c) Context.wake = _
      rw [World.pushFront_toGlobals, World.setPausedAfter_toGlobals, hglobals]
      rfl
    · show w.car c :: q.run = (c :: rc).map (World.pushFront _ c).car
      rw [World.pushFront_car, World.setPausedAfter_car, map_cons, ← hrun]
    · show q.paused.erase (w.car c) = (before ++ after).map (World.pushFront _ c).car
      rw [World.pushFront_car, World.setPausedAfter_car, hpaused, map_append, map_cons,
        map_append, erase_append_right _ hnotin, erase_cons_head]

theorem unlockFirst (ctx : ThreadId) (mutex : ℕ) :
    ∃ w', w.unlockFirst ctx mutex = some w' ∧ Represents e w' (q.unlockFirst ctx mutex) := by
  unfold World.unlockFirst Queues.unlockFirst
  rw [hrep.globals]
  split
  · obtain ⟨w', hwake, hrep'⟩ :=
      (hrep.onGlobals fun g => g.setMutex mutex ⟨false, some ctx⟩).wakeFirst (.mutex mutex)
    exact ⟨w', by rw [hwake]; rfl, hrep'⟩
  · exact ⟨w, rfl, hrep⟩

theorem unlock (ctx : ThreadId) (mutex : ℕ) (condvar : Option Event)
    (timeout : Timeout) (now : Timeval) :
    ∃ w', (w.sexpMutexUnlock ctx mutex condvar timeout now).map Prod.snd = some w' ∧
      Represents e w' (q.unlock ctx mutex condvar timeout now) := by
  obtain ⟨w₁, hfirst, hrep₁⟩ := hrep.unlockFirst ctx mutex
  unfold World.sexpMutexUnlock Queues.unlock
  rw [hfirst]
  cases condvar with
  | none => exact ⟨w₁, rfl, hrep₁⟩
  | some condvar =>
    obtain ⟨w₂, hblock, hrep₂⟩ := hrep₁.block condvar timeout now
    exact ⟨w₂, by simp [hblock], hrep₂⟩

omit hrep

theorem length_wakeFirst (q : Queues V) (event : Event) (hwoken : (q.wakeFirst event).1 = true) :
    (q.wakeFirst event).2.paused.length + 1 = q.paused.length := by
  unfold Queues.wakeFirst at hwoken ⊢
  cases hfind : q.paused.find? fun t => decide ((q.threads t).event = event) with
  | none => simp [hfind] at hwoken
  | some t =>
    have hmem := mem_of_find?_eq_some hfind
    have hpos := length_pos_of_mem hmem
    have herase := length_erase_of_mem hmem
    simp only
    omega

theorem broadcastLoop (condvar : Event) (fuel : ℕ) :
    ∀ {w : World V} {q : Queues V} {turns : ℕ}, Represents e w q → q.paused.length < fuel →
      q.paused.length < turns →
      ∃ w', World.broadcastLoop condvar fuel w = some w' ∧
        Represents e w' (q.broadcastLoop condvar turns) := by
  induction fuel with
  | zero =>
    intro w q turns _ hfuel _
    omega
  | succ fuel ih =>
    intro w q turns hrep hfuel hturns
    cases turns with
    | zero => omega
    | succ turns =>
      obtain ⟨w₁, hwake, hrep₁⟩ := hrep.wakeFirst condvar
      unfold World.broadcastLoop Queues.broadcastLoop World.sexpConditionVariableSignal
      rw [hwake]
      cases hwoken : (q.wakeFirst condvar).1 with
      | false =>
        simp only [bind_eq_bind, bind_some, hwoken, Bool.false_eq_true, if_false]
        exact ⟨w₁, rfl, hrep₁⟩
      | true =>
        have hlength := length_wakeFirst q condvar hwoken
        simp only [bind_eq_bind, bind_some, hwoken, if_true]
        exact ih hrep₁ (by omega) (by omega)

theorem paused_length_lt_fuel (hrep : Represents e w q) : q.paused.length < w.fuel := by
  obtain ⟨rc, pc, hcells, -, hpaused⟩ := hrep.cells
  rw [hpaused, length_map]
  exact hcells.length_lt_fuel

theorem broadcast (hrep : Represents e w q) (condvar : Event) :
    ∃ w', w.sexpConditionVariableBroadcast condvar = some w' ∧
      Represents e w' (q.broadcast condvar) :=
  broadcastLoop condvar _ hrep hrep.paused_length_lt_fuel (Nat.lt_succ_self _)

theorem blocker (hrep : Represents e w q) (ctx : ThreadId) (portorfd : Event) (timeout : Timeout)
    (now : Timeval) :
    ∃ w', w.sexpBlocker ctx portorfd timeout now = some w' ∧
      Represents e w' (q.blocker ctx portorfd timeout now) := by
  unfold World.sexpBlocker Queues.blocker
  cases World.portFd portorfd with
  | none => exact ⟨w, rfl, hrep⟩
  | some fd =>
    simp only
    split
    · exact (hrep.onGlobals _).block portorfd timeout now
    · exact hrep.block portorfd timeout now

theorem perform (hrep : Represents e w q) (ctx : ThreadId) (now : Timeval) (op : Operation V) :
    ∃ w', w.perform ctx now op = some w' ∧ Represents e w' (q.perform ctx now op) := by
  cases op with
  | compute arg1 => exact ⟨_, rfl, hrep.setThread ctx _⟩
  | start t => exact ⟨_, rfl, hrep.start t⟩
  | terminate t => exact hrep.terminate ctx t
  | join t timeout => exact hrep.join ctx t timeout now
  | sleep timeout => exact hrep.sleep ctx timeout now
  | lock mutex timeout owner => exact hrep.lock ctx mutex timeout owner now
  | unlock mutex condvar timeout => exact hrep.unlock ctx mutex condvar timeout now
  | signal condvar =>
    obtain ⟨w', hwake, hrep'⟩ := hrep.wakeFirst condvar
    refine ⟨w', ?_, hrep'⟩
    show (w.wakeFirst condvar).map Prod.snd = some w'
    rw [hwake]
    rfl
  | broadcast condvar => exact hrep.broadcast condvar
  | block portorfd timeout => exact hrep.blocker ctx portorfd timeout now
  | finish errorp => exact ⟨_, rfl, hrep.setThread ctx _⟩

end Represents

end ChibiScheme.Thread
