import ChibiScheme.Thread.Refinement

/-!
# The scheduler on pairs

Each phase of the scheduler refines its counterpart on lists, and so does the scheduler; a machine
on pairs then runs in step with one on lists.
-/

namespace ChibiScheme.Thread

open Linked List Option Function

variable {V : Type} {e : Tail} {w w' : World V} {q : Queues V} {ctx t : ThreadId}

/-! ## Waking all threads for an event -/

theorem onGlobals_id (w : World V) : w.onGlobals id = w := rfl

/-- The threads of a loop that wakes some of them. -/
def wokenGlobals (g : Globals V) (woken : List ThreadId) (wake : Context V → Context V) :
    Globals V :=
  { g with threads := fun t => if t ∈ woken then wake (g.threads t) else g.threads t }

theorem wokenGlobals_nil (g : Globals V) (wake : Context V → Context V) :
    wokenGlobals g [] wake = g := by
  simp [wokenGlobals]

theorem wokenGlobals_cons (g : Globals V) (t : ThreadId) (woken : List ThreadId) (hnot : t ∉ woken)
    (wake : Context V → Context V) :
    wokenGlobals (g.setThread t wake) woken wake = wokenGlobals g (t :: woken) wake := by
  unfold wokenGlobals Globals.setThread
  congr 1
  funext u
  by_cases heq : u = t
  · subst heq
    simp [hnot]
  · simp [heq]

/-- The loop takes out the threads that are hit and leaves the others in order. -/
theorem wakeLoop_spec (hit : Event → Bool) (wake : Context V → Context V)
    (queued : ThreadId → Bool) (todo : List ℕ) :
    ∀ {w : World V} {rc before : List ℕ} {fuel : ℕ}, w.Cells e rc (before ++ todo) →
      (todo.map w.car).Nodup → todo.length < fuel →
      let woken := todo.filter fun c => hit (w.threads (w.car c)).event
      ∃ w', World.wakeLoop hit wake queued fuel before.getLast? (headLink todo (.stop e)) w =
          some w' ∧
        w'.Cells e (rc ++ woken.filter fun c => queued (w.car c))
          (before ++ todo.filter fun c => !hit (w.threads (w.car c)).event) ∧
        w'.car = w.car ∧ w'.toGlobals = wokenGlobals w.toGlobals (woken.map w.car) wake := by
  induction todo with
  | nil =>
    intro w rc before fuel hcells _ hfuel
    cases fuel with
    | zero => simp at hfuel
    | succ fuel =>
      refine ⟨w, rfl, by simpa using hcells, rfl, ?_⟩
      exact (wokenGlobals_nil _ _).symm
  | cons c todo ih =>
    intro w rc before fuel hcells hnodup hfuel
    rw [map_cons, nodup_cons] at hnodup
    cases fuel with
    | zero => simp at hfuel
    | succ fuel =>
      have hfuel' : todo.length < fuel := by simpa using hfuel
      have hnext : w.cdr c = headLink todo (.stop e) :=
        ((chain_append.mp hcells.paused).2.2).head_eq
      by_cases hhit : hit (w.threads (w.car c)).event = true
      · obtain ⟨hloose, hold⟩ := hcells.unlinked
        -- the pair is taken out, and queued or not
        let w₁ := ((w.setThread (w.car c) wake).setPausedAfter before.getLast?
          (w.cdr c)).setCdr c null
        have hcar₁ : w₁.car = w.car := World.setPausedAfter_car _ _
        have hglobals₁ : w₁.toGlobals = w.toGlobals.setThread (w.car c) wake :=
          World.setPausedAfter_toGlobals _ _
        have hold₁ : c < w₁.cells := by
          show c < (World.setPausedAfter _ _ _).cells
          rwa [World.setPausedAfter_cells]
        have hcells₁ : w₁.Cells e rc (before ++ todo) :=
          ((hcells.setThread (w.car c) wake).unlink).setCdr hloose null
        let w₂ := if queued (w.car c) then w₁.pushBack c else w₁
        have hcells₂ : w₂.Cells e (rc ++ [c].filter fun c => queued (w.car c))
            (before ++ todo) := by
          cases hqueued : queued (w.car c) with
          | false => simpa [w₂, hqueued] using hcells₁
          | true =>
            simpa [w₂, hqueued] using
              hcells₁.pushBack hloose hold₁ (update_self _ _ _)
        have hcar₂ : w₂.car = w.car := by
          simp only [w₂]
          split
          · rw [World.pushBack_car, hcar₁]
          · exact hcar₁
        have hglobals₂ : w₂.toGlobals = w.toGlobals.setThread (w.car c) wake := by
          simp only [w₂]
          split
          · rw [World.pushBack_toGlobals, hglobals₁]
          · exact hglobals₁
        -- the events of the threads in front of the loop are what they were
        have hsame : ∀ d ∈ todo, (w₂.threads (w₂.car d)).event = (w.threads (w.car d)).event := by
          intro d hd
          have hne : w.car d ≠ w.car c := fun heq =>
            hnodup.1 (heq ▸ List.mem_map_of_mem hd)
          rw [hcar₂, hglobals₂, Globals.setThread_of_ne _ _ hne]
        have hfilter : (todo.filter fun c => hit (w₂.threads (w₂.car c)).event) =
            todo.filter fun c => hit (w.threads (w.car c)).event :=
          filter_congr fun d hd => by rw [hsame d hd]
        have hfilter' : (todo.filter fun c => !hit (w₂.threads (w₂.car c)).event) =
            todo.filter fun c => !hit (w.threads (w.car c)).event :=
          filter_congr fun d hd => by rw [hsame d hd]
        obtain ⟨w', hrun, hcells', hcar', hglobals'⟩ :=
          ih hcells₂ (by rw [hcar₂]; exact hnodup.2) hfuel'
        rw [hfilter, hfilter', hcar₂] at hcells'
        rw [hfilter, hcar₂] at hglobals'
        refine ⟨w', ?_, ?_, hcar'.trans hcar₂, ?_⟩
        · rw [headLink_cons, World.wakeLoop, if_pos hhit]
          simp only [hnext]
          rw [← hrun]
          simp only [w₂, w₁, hnext, World.setCdr_car, World.setPausedAfter_car]
          rfl
        · simp only [filter_cons, hhit, if_true, Bool.not_true, Bool.false_eq_true, if_false]
          rw [append_assoc] at hcells'
          convert hcells' using 2
          simp only [filter_cons, filter_nil]
          split <;> rfl
        · rw [hglobals', hglobals₂]
          simp only [filter_cons, hhit, if_true, map_cons]
          refine wokenGlobals_cons _ _ _ (fun hmem => hnodup.1 ?_) _
          exact (filter_sublist.map w.car).subset hmem
      · have hmiss : hit (w.threads (w.car c)).event = false := by simpa using hhit
        have hcells₁ : w.Cells e rc ((before ++ [c]) ++ todo) := by simpa using hcells
        obtain ⟨w', hrun, hcells', hcar', hglobals'⟩ := ih hcells₁ hnodup.2 hfuel'
        refine ⟨w', ?_, ?_, hcar', ?_⟩
        · rw [headLink_cons, World.wakeLoop, if_neg hhit, hnext]
          simpa using hrun
        · simpa [filter_cons, hmiss] using hcells'
        · simpa [filter_cons, hmiss] using hglobals'

namespace Represents

theorem wakeAll (hrep : Represents e w q) (hit : Event → Bool) (wake : Context V → Context V)
    (queued : ThreadId → Bool) :
    ∃ w', World.wakeLoop hit wake queued w.fuel none w.paused w = some w' ∧
      Represents e w' (q.wakeAll hit wake queued) := by
  have hthreads := hrep.threads
  obtain ⟨hglobals, ⟨rc, pc, hcells, hrun, hpaused⟩, hnodup⟩ := hrep
  obtain ⟨w', hloop, hcells', hcar', hglobals'⟩ :=
    wakeLoop_spec hit wake queued pc (show w.Cells e rc ([] ++ pc) from hcells)
      (hpaused ▸ hnodup) hcells.length_lt_fuel
  rw [← hcells.paused_eq] at hloop
  refine ⟨w', hloop, ?_, ⟨_, _, hcells', ?_, ?_⟩, hnodup.filter _⟩
  · rw [hglobals', hglobals]
    unfold wokenGlobals Queues.wakeAll Queues.setThreads
    congr 1
    funext t
    have hmem : (t ∈ (pc.filter fun c => hit (q.threads (w.car c)).event).map w.car) ↔
        (decide (t ∈ q.paused) && hit (q.threads t).event) = true := by
      rw [hpaused]
      simp only [List.mem_map, mem_filter, Bool.and_eq_true, decide_eq_true_eq]
      constructor
      · rintro ⟨c, ⟨hc, hhit⟩, rfl⟩
        exact ⟨⟨c, hc, rfl⟩, hhit⟩
      · rintro ⟨⟨c, hc, rfl⟩, hhit⟩
        exact ⟨c, ⟨hc, hhit⟩, rfl⟩
    exact if_congr hmem rfl rfl
  · show q.run ++ (q.paused.filter _).filter _ = _
    rw [hcar', map_append, ← hrun, hpaused, ← hthreads]
    simp only [List.filter_map]
    rfl
  · show q.paused.filter _ = _
    rw [hcar', hpaused, ← hthreads, nil_append, List.filter_map]
    rfl

/-! ## The phases -/

theorem wakeFd (hrep : Represents e w q) (ctx : ThreadId) (fd : ℤ) :
    ∃ w', w.wakeFd ctx fd = some w' ∧ Represents e w' (q.wakeFd ctx fd) := by
  have hcurrent : Represents e
      (if (w.threads ctx).event.onFd fd then w.setThread ctx .wakeReady else w)
      (if (q.threads ctx).event.onFd fd then q.setThread ctx .wakeReady else q) := by
    rw [hrep.threads]
    split
    · exact hrep.setThread ctx _
    · exact hrep
  exact hcurrent.wakeAll _ _ _

theorem pollLoop (revents : ℕ → Bool) (ctx : ThreadId) (i : ℕ) :
    ∀ {w : World V} {q : Queues V} {k : ℤ}, Represents e w q →
      ∃ w', World.pollLoop ctx revents i k w = some w' ∧
        Represents e w' (q.pollLoop ctx revents i k) := by
  induction i with
  | zero =>
    intro w q k hrep
    exact ⟨w, rfl, hrep⟩
  | succ i ih =>
    intro w q k hrep
    unfold World.pollLoop Queues.pollLoop
    rw [hrep.globals]
    split
    · cases revents i with
      | false => exact ih hrep
      | true =>
        cases q.pollfds[i]? with
        | none => exact ih hrep
        | some pfd =>
          obtain ⟨w₁, hwake, hrep₁⟩ := hrep.wakeFd ctx pfd.fd
          simp only [hwake, bind_eq_bind, bind_some]
          exact ih (hrep₁.onGlobals _)
    · exact ⟨w, rfl, hrep⟩

theorem checkFds (hrep : Represents e w q) (ctx : ThreadId) (tick : Tick) :
    ∃ w', w.checkFds ctx tick = some w' ∧ Represents e w' (q.checkFds ctx tick) := by
  unfold World.checkFds Queues.checkFds
  rw [hrep.globals]
  exact pollLoop _ _ _ hrep

theorem checkJoins (hrep : Represents e w q) (ctx : ThreadId) :
    ∃ w', w.checkJoins ctx = some w' ∧ Represents e w' (q.checkJoins ctx) := by
  unfold World.checkJoins Queues.checkJoins
  rw [hrep.threads]
  split
  · exact hrep.wakeAll _ _ _
  · exact ⟨w, rfl, hrep⟩

end Represents

/-- The loop passes the threads whose deadlines have passed. -/
theorem timeoutLoop_spec (now : Timeval) (todo : List ℕ) :
    ∀ {w : World V} {start : Pointer} {prev : Option ℕ} {fuel : ℕ},
      Chain w.cdr start todo (.stop e) → todo.length < fuel → (todo.map w.car).Nodup →
      let expired := fun c => sexpContextBefore (w.threads (w.car c)).timeval now
      World.timeoutLoop now fuel prev start w =
        some ((todo.takeWhile expired).getLast?.or prev, headLink (todo.dropWhile expired) (.stop e),
          w.onGlobals fun g => wokenGlobals g ((todo.takeWhile expired).map w.car) .wakeTimeout) := by
  induction todo with
  | nil =>
    intro w start prev fuel hchain hfuel _
    cases fuel with
    | zero => simp at hfuel
    | succ fuel =>
      rw [chain_nil] at hchain
      simp only [hchain, World.timeoutLoop, takeWhile_nil, dropWhile_nil,
        getLast?_nil, none_or, headLink_nil, map_nil]
      have hsame : (fun g : Globals V => wokenGlobals g [] Context.wakeTimeout) = id :=
        funext fun g => wokenGlobals_nil g _
      rw [hsame, onGlobals_id]
  | cons c todo ih =>
    intro w start prev fuel hchain hfuel hnodup
    rw [map_cons, nodup_cons] at hnodup
    cases fuel with
    | zero => simp at hfuel
    | succ fuel =>
      obtain ⟨rfl, hrest⟩ := hchain
      by_cases hexpired : sexpContextBefore (w.threads (w.car c)).timeval now = true
      · let w₁ := w.setThread (w.car c) Context.wakeTimeout
        have hloop := @ih w₁ _ (some c) _ hrest (by simpa using hfuel) hnodup.2
        -- waking a thread does not change its deadline
        have hsame : (fun d => sexpContextBefore (w₁.threads (w₁.car d)).timeval now) =
            fun d => sexpContextBefore (w.threads (w.car d)).timeval now := by
          funext d
          show sexpContextBefore
            ((w.toGlobals.setThread (w.car c) Context.wakeTimeout).threads (w.car d)).timeval
            now = _
          rw [Globals.setThread_threads]
          split
          · rename_i heq
            rw [heq]
            rfl
          · rfl
        rw [hsame] at hloop
        simp only [World.timeoutLoop, hexpired, if_true, takeWhile_cons, dropWhile_cons]
        refine hloop.trans ?_
        have hlast : ((todo.takeWhile fun d =>
            sexpContextBefore (w.threads (w.car d)).timeval now).getLast?.or (some c)) =
            ((c :: todo.takeWhile fun d =>
              sexpContextBefore (w.threads (w.car d)).timeval now).getLast?.or prev) := by
          rw [getLast?_cons]
          cases (todo.takeWhile fun d =>
            sexpContextBefore (w.threads (w.car d)).timeval now).getLast? <;> rfl
        rw [hlast]
        have hglobals : w₁.onGlobals (fun g => wokenGlobals g ((todo.takeWhile fun d =>
            sexpContextBefore (w.threads (w.car d)).timeval now).map w₁.car) .wakeTimeout) =
            w.onGlobals fun g => wokenGlobals g ((c :: todo.takeWhile fun d =>
              sexpContextBefore (w.threads (w.car d)).timeval now).map w.car) .wakeTimeout := by
          have hcons := wokenGlobals_cons w.toGlobals (w.car c)
            ((todo.takeWhile fun d =>
              sexpContextBefore (w.threads (w.car d)).timeval now).map w.car)
            (fun hmem => hnodup.1 ((( takeWhile_prefix _).sublist.map w.car).subset hmem))
            Context.wakeTimeout
          exact congrArg (fun g => ({ w with toGlobals := g } : World V)) hcons
        rw [hglobals]
      · have hfalse : sexpContextBefore (w.threads (w.car c)).timeval now = false := by
          simpa using hexpired
        simp only [World.timeoutLoop, hfalse, Bool.false_eq_true, if_false, takeWhile_cons,
          dropWhile_cons, getLast?_nil, none_or, headLink_cons, map_nil]
        have hsame : (fun g : Globals V => wokenGlobals g [] Context.wakeTimeout) = id :=
          funext fun g => wokenGlobals_nil g _
        rw [hsame, onGlobals_id]

namespace Represents

variable (hrep : Represents e w q)
include hrep

theorem checkTimeouts (now : Timeval) :
    ∃ w', w.checkTimeouts now = some w' ∧ Represents e w' (q.checkTimeouts now) := by
  have hthreads := hrep.threads
  obtain ⟨hglobals, ⟨rc, pc, hcells, hrun, hpaused⟩, hnodup⟩ := hrep
  have hloop : World.timeoutLoop now w.fuel none w.paused w = _ :=
    timeoutLoop_spec now pc hcells.paused hcells.length_lt_fuel
    (hpaused ▸ hnodup)
  let expired := fun c => sexpContextBefore (w.threads (w.car c)).timeval now
  have htake : q.paused.takeWhile (q.expired now) = (pc.takeWhile expired).map w.car := by
    rw [hpaused, takeWhile_map]
    unfold Queues.expired
    rw [← hthreads]
    rfl
  have hdrop : q.paused.dropWhile (q.expired now) = (pc.dropWhile expired).map w.car := by
    rw [hpaused, dropWhile_map]
    unfold Queues.expired
    rw [← hthreads]
    rfl
  let w₁ := w.onGlobals fun g => wokenGlobals g ((pc.takeWhile expired).map w.car) .wakeTimeout
  have hcells₁ : w₁.Cells e rc (pc.takeWhile expired ++ pc.dropWhile expired) := by
    rw [takeWhile_append_dropWhile]
    exact hcells.onGlobals _
  have hglobals₁ : w₁.toGlobals = (q.checkTimeouts now).toGlobals := by
    show wokenGlobals w.toGlobals _ _ = _
    rw [hglobals]
    unfold wokenGlobals Queues.checkTimeouts Queues.setThreads
    simp only [htake, decide_eq_true_eq]
  have hresult : (q.checkTimeouts now).run = q.run ++ (pc.takeWhile expired).map w.car ∧
      (q.checkTimeouts now).paused = (pc.dropWhile expired).map w.car :=
    ⟨congrArg (q.run ++ ·) htake, hdrop⟩
  have hnodup' : (q.checkTimeouts now).paused.Nodup :=
    hnodup.sublist (dropWhile_sublist _)
  unfold World.checkTimeouts
  simp only [hloop, bind_eq_bind, bind_some, or_none]
  rcases eq_nil_or_concat (pc.takeWhile expired) with hnil | ⟨init, last, hlast⟩
  · rw [hnil] at hcells₁ hresult
    refine ⟨w₁, ?_, hglobals₁, ⟨rc, _, hcells₁, ?_, hresult.2⟩, hnodup'⟩
    · simp only [expired] at hnil
      simp only [hnil, getLast?_nil, w₁, expired]
    · rw [hresult.1, hrun]
      exact append_nil _
  · rw [concat_eq_append] at hlast
    rw [hlast] at hcells₁ hresult
    have hsplice := hcells₁.splice
    have hcar : w₁.car = w.car := rfl
    refine ⟨_, ?_, (World.splice_toGlobals _ _).trans hglobals₁, ⟨_, _, hsplice, ?_, ?_⟩, hnodup'⟩
    · simp only [expired] at hlast
      simp only [hlast, getLast?_append, getLast?_singleton, some_or]
      simp only [w₁, expired, hlast]
    · rw [World.splice_car, hcar, hresult.1, hrun, ← map_append]
    · rw [World.splice_car, hcar, hresult.2]

theorem dequeueNext {rc pc : List ℕ} {front : ℕ}
    (hcells : w.Cells e (front :: rc) pc) (hpaused : q.paused = pc.map w.car) (ctx : ThreadId)
    (now : Timeval) :
    ∃ w', w.dequeueNext ctx front now = some w' ∧
      Represents e w'
        (if 0 < (q.threads ctx).refuel ∧ ctx ∉ q.paused then
          { q with run := rc.map w.car }.insertTimed ctx .other now
        else { q with run := rc.map w.car }) := by
  have hrep₁ : Represents e (w.popFront front) { q with run := rc.map w.car } := by
    refine ⟨(World.popFront_toGlobals front).trans hrep.globals,
      ⟨rc, pc, hcells.popFront, ?_, ?_⟩, hrep.nodup⟩
    · rw [World.popFront_car]
    · rw [World.popFront_car]
      exact hpaused
  have hrefuel : ((w.popFront front).threads ctx).refuel = (q.threads ctx).refuel := by
    rw [World.popFront_toGlobals, hrep.globals]
  unfold World.dequeueNext
  simp only [hrefuel]
  by_cases hpos : 0 < (q.threads ctx).refuel
  · simp only [hpos, if_true, true_and, hrep₁.pausedMem, bind_eq_bind, bind_some]
    by_cases hmem : ctx ∈ q.paused
    · simp only [hmem, decide_true, if_true, not_true_eq_false, if_false]
      exact ⟨_, rfl, hrep₁⟩
    · simp only [hmem, decide_false, Bool.false_eq_true, if_false, not_false_eq_true, if_true]
      exact hrep₁.insertTimed ctx .other now
  · simp only [hpos, if_false, false_and]
    exact ⟨_, rfl, hrep₁⟩

theorem dequeue (ctx : ThreadId) (now : Timeval) :
    ∃ w', w.dequeue ctx now = some ((q.dequeue ctx now).1, w') ∧
      Represents e w' (q.dequeue ctx now).2 := by
  have hthreads := hrep.threads
  obtain ⟨rc, pc, hcells, hrun, hpaused⟩ := hrep.cells
  unfold World.dequeue Queues.dequeue
  rw [hthreads]
  cases rc with
  | nil =>
    have hfront : w.front = .stop .null := hcells.front_eq
    have hempty : q.run = [] := hrun
    simp only [hfront, hempty]
    split
    · rcases scan_cases hcells fun t => (q.threads t).event.isInput with ⟨hscan, hnot⟩ |
        ⟨before, c, after, rfl, hhere, hbefore, hscan⟩
      · have hfind : q.paused.find? (fun t => (q.threads t).event.isInput) = none := by
          rw [hpaused, find?_eq_none]
          intro t ht
          simpa using hnot t ht
        rw [hscan, hfind]
        exact ⟨w, rfl, hrep⟩
      · have hfind : q.paused.find? (fun t => (q.threads t).event.isInput) = some (w.car c) := by
          rw [hpaused, map_append, map_cons, find?_append, find?_cons, hhere]
          rw [find?_eq_none.mpr fun t ht => by simpa using hbefore t ht]
          rfl
        rw [hscan, hfind]
        exact ⟨w, rfl, hrep⟩
    · exact ⟨w, rfl, hrep⟩
  | cons front rc =>
    have hfront : w.front = .cell front := hcells.run.1
    rw [map_cons] at hrun
    simp only [hfront, hrun]
    split
    · obtain ⟨w', hnext, hrep'⟩ := hrep.dequeueNext hcells hpaused ctx now
      exact ⟨w', by rw [hnext]; rfl, hrep'⟩
    · obtain ⟨w', hrotate, hcells', hglobals', hcar'⟩ := hcells.rotate ctx
      refine ⟨w', by rw [hrotate]; rfl, hglobals'.trans hrep.globals, ⟨_, pc, hcells', ?_, ?_⟩,
        hrep.nodup⟩
      · have hnot : front ∉ rc := (nodup_cons.mp hcells.nodup_run).1
        have hsame : rc.map w'.car = rc.map w.car := by
          refine map_congr_left fun c hc => ?_
          rw [hcar', update_of_ne]
          rintro rfl
          exact hnot hc
        rw [map_append, map_singleton, hsame, hcar', update_self]
      · show q.paused = _
        rw [hpaused]
        refine map_congr_left fun c hc => ?_
        rw [hcar', update_of_ne]
        rintro rfl
        exact hcells.disjoint mem_cons_self hc

theorem earliest (res : ThreadId) (now : Timeval) :
    ∃ w', w.earliest res now = some ((q.earliest res now).1, w') ∧
      Represents e w' (q.earliest res now).2 := by
  have hthreads := hrep.threads
  obtain ⟨rc, pc, hcells, hrun, hpaused⟩ := hrep.cells
  obtain ⟨w₁, hdelete, hrep₁⟩ := hrep.delete res
  unfold World.earliest Queues.earliest
  rw [hthreads]
  cases pc with
  | nil =>
    have hempty : q.paused = [] := hpaused
    simp only [hcells.paused_eq, hempty, headLink_nil, hdelete, map_some]
    refine ⟨w₁, rfl, ?_⟩
    have hsame : q.delete res = q := by
      unfold Queues.delete
      rw [erase_of_not_mem (by simp [hempty])]
    rwa [hsame] at hrep₁
  | cons c pc =>
    rw [map_cons] at hpaused
    simp only [hcells.paused_eq, hpaused, headLink_cons]
    split
    · have hcells' : ({ w with paused := w.cdr c } : World V).Cells e rc pc := by
        have hsplit : w.Cells e rc ([] ++ c :: pc) := hcells
        exact hsplit.unlink
      have hrep' : Represents e { w with paused := w.cdr c }
          { q with paused := pc.map w.car } := by
        refine ⟨hrep.globals, ⟨rc, pc, hcells', hrun, rfl⟩, ?_⟩
        have hnodup := hrep.nodup
        rw [hpaused] at hnodup
        exact (nodup_cons.mp hnodup).2
      simp only [hrep'.pausedMem, bind_eq_bind, bind_some]
      by_cases hmem : res ∈ pc.map w.car
      · simp only [hmem, decide_true, if_true]
        exact ⟨_, rfl, hrep'⟩
      · obtain ⟨w₂, hinsert, hrep₂⟩ := hrep'.insertTimed res (.context res) now
        simp only [hmem, decide_false, Bool.false_eq_true, if_false, hinsert, bind_some]
        exact ⟨w₂, rfl, hrep₂⟩
    · rw [hdelete]
      exact ⟨w₁, rfl, hrep₁⟩

theorem nap (res : ThreadId) (now : Timeval) :
    Represents e (w.nap res now) (q.nap res now) := by
  unfold World.nap Queues.nap
  rw [hrep.threads]
  dsimp only
  split
  · exact hrep
  · split
    · exact hrep
    · exact hrep.setThread res _

theorem scheduler (ctx : ThreadId) (tick : Tick) :
    ∃ w', w.sexpScheduler ctx tick = some ((q.scheduler ctx tick).1, w') ∧
      Represents e w' (q.scheduler ctx tick).2 := by
  obtain ⟨w₁, hfds, hrep₁⟩ := hrep.checkFds ctx tick
  obtain ⟨w₂, hjoins, hrep₂⟩ := hrep₁.checkJoins ctx
  obtain ⟨w₃, htimeouts, hrep₃⟩ := hrep₂.checkTimeouts tick.now
  obtain ⟨w₄, hdequeue, hrep₄⟩ := hrep₃.dequeue ctx tick.now
  unfold World.sexpScheduler Queues.scheduler Queues.wakePhases Queues.settle
  simp only [hfds, hjoins, htimeouts, hdequeue, bind_eq_bind, bind_some]
  generalize (((q.checkFds ctx tick).checkJoins ctx).checkTimeouts tick.now).dequeue ctx tick.now =
    result at hrep₄
  obtain ⟨res, q₄⟩ := result
  simp only [hrep₄.threads]
  split
  · obtain ⟨w₅, hearliest, hrep₅⟩ := hrep₄.earliest res tick.later
    simp only [hearliest, bind_some]
    exact ⟨_, rfl, hrep₅.nap _ _⟩
  · exact ⟨w₄, rfl, hrep₄⟩

end Represents

/-! ## Machines -/

namespace Machine

/-- A machine on pairs and one on the lists that they represent. -/
structure Represents (e : Tail) (m : Machine (World V)) (n : Machine (Queues V)) : Prop where
  queues : Thread.Represents e m.queues n.queues
  current : m.current = n.current
  root : m.root = n.root
  started : m.started = n.started
  returned : m.returned = n.returned
  raised : m.raised = n.raised

variable {m m' : Machine (World V)} {n : Machine (Queues V)}

theorem Represents.thread (hrep : Represents e m n) (t : ThreadId) :
    m.thread (World.level V) t = n.thread (Queues.level V) t :=
  congrFun hrep.queues.threads t

theorem Represents.endLoop (hrep : Represents e m n) :
    Represents e (m.endLoop (World.level V)) (n.endLoop (Queues.level V)) := by
  obtain ⟨w, current, root, started, returned, raised⟩ := m
  obtain ⟨q, current', root', started', returned', raised'⟩ := n
  obtain ⟨hqueues, hcurrent, hroot, hstarted, hreturned, hraised⟩ := hrep
  dsimp only at hqueues hcurrent hroot hstarted hreturned hraised
  subst hcurrent hroot hstarted hreturned hraised
  let finish := fun c : Context V => { c with result := some c.arg1 }
  have hresult := hqueues.setThread current finish
  have hroot : (World.level V).threads ((World.level V).setThread w current finish) root =
      (Queues.level V).threads ((Queues.level V).setThread q current finish) root :=
    congrFun hresult.threads root
  unfold Machine.endLoop
  dsimp only
  rw [hroot]
  split
  · exact ⟨hresult, rfl, rfl, rfl, rfl, rfl⟩
  · exact ⟨hresult.setThread _ _, rfl, rfl, rfl, rfl, rfl⟩

theorem Represents.performStep (hrep : Represents e m n) (now : Timeval) (op : Operation V) :
    (m.performStep (World.level V) now op = none ∧ n.performStep (Queues.level V) now op = none) ∨
    ∃ m' n', m.performStep (World.level V) now op = some m' ∧
      n.performStep (Queues.level V) now op = some n' ∧ Represents e m' n' := by
  have hiff : (m.Running (World.level V) ∧ m.mayStart op) ↔
      (n.Running (Queues.level V) ∧ n.mayStart op) := by
    unfold Machine.Running
    rw [hrep.thread, hrep.current, hrep.returned, hrep.raised]
    refine and_congr Iff.rfl ?_
    cases op <;> simp only [Machine.mayStart, hrep.started]
  unfold Machine.performStep
  by_cases hmay : n.Running (Queues.level V) ∧ n.mayStart op
  · rw [if_pos hmay, if_pos (hiff.mpr hmay)]
    obtain ⟨w', hperform, hrep'⟩ := hrep.queues.perform m.current now op
    have hworld : (World.level V).perform m.queues m.current now op = some w' := hperform
    have hlists : (Queues.level V).perform n.queues n.current now op =
        some (n.queues.perform m.current now op) := by
      rw [hrep.current]
      rfl
    have hstarted : m.startedBy op = n.startedBy op := by
      cases op <;> simp only [Machine.startedBy, hrep.started]
    have hraised : m.raisedBy (World.level V) op = n.raisedBy (Queues.level V) op := by
      have hpauses : (World.level V).pauses m.queues op = (Queues.level V).pauses n.queues op :=
        congrArg (fun g : Globals V => g.pauses op) hrep.queues.globals
      cases op <;> simp only [Machine.raisedBy, hrep.raised, hpauses]
    have hafter : Represents e
        { m with
          queues := w'
          started := m.startedBy op
          raised := m.raisedBy (World.level V) op }
        { n with
          queues := n.queues.perform m.current now op
          started := n.startedBy op
          raised := n.raisedBy (Queues.level V) op } :=
      ⟨hrep', hrep.current, hrep.root, hstarted, hrep.returned, hraised⟩
    refine .inr ⟨_, _, by rw [hworld]; rfl, by rw [hlists]; rfl, ?_⟩
    cases op with
    | finish errorp => exact hafter.endLoop
    | compute | start | terminate | join | sleep | lock | unlock | signal | broadcast | block =>
      exact hafter
  · rw [if_neg hmay, if_neg (fun h => hmay (hiff.mp h))]
    exact .inl ⟨rfl, rfl⟩

theorem Represents.scheduleStep (hrep : Represents e m n) (tick : Tick) :
    (m.scheduleStep (World.level V) tick = none ∧ n.scheduleStep (Queues.level V) tick = none) ∨
    ∃ m' n', m.scheduleStep (World.level V) tick = some m' ∧
      n.scheduleStep (Queues.level V) tick = some n' ∧ Represents e m' n' := by
  obtain ⟨w', hschedule, hrep'⟩ := hrep.queues.scheduler m.current tick
  have hworld : (World.level V).scheduler m.queues m.current tick =
      some ((n.queues.scheduler m.current tick).1, w') := hschedule
  have hlists : (Queues.level V).scheduler n.queues n.current tick =
      some (n.queues.scheduler m.current tick) := by
    rw [hrep.current]
    rfl
  unfold Machine.scheduleStep
  rw [hworld, hlists]
  by_cases hreturned : n.returned = true
  · rw [if_pos hreturned, if_pos (hrep.returned.trans hreturned)]
    exact .inl ⟨rfl, rfl⟩
  · have hreturned' : ¬ m.returned = true := fun h => hreturned (hrep.returned.symm.trans h)
    rw [if_neg hreturned, if_neg hreturned']
    generalize n.queues.scheduler m.current tick = result at hrep'
    obtain ⟨res, q'⟩ := result
    have hafter : Represents e { m with queues := w', current := res, raised := false }
        { n with queues := q', current := res, raised := false } :=
      ⟨hrep', rfl, hrep.root, hrep.started, hrep.returned, rfl⟩
    refine .inr ⟨_, _, rfl, rfl, ?_⟩
    dsimp only
    rw [hafter.thread]
    split
    · exact hafter.endLoop
    · exact hafter

theorem Represents.step (hrep : Represents e m n) (a : Action V) :
    (m.step (World.level V) a = none ∧ n.step (Queues.level V) a = none) ∨
    ∃ m' n', m.step (World.level V) a = some m' ∧ n.step (Queues.level V) a = some n' ∧
      Represents e m' n' := by
  cases a with
  | perform now op => exact hrep.performStep now op
  | schedule tick => exact hrep.scheduleStep tick

/-- The lists of a machine that has just been entered. -/
def empty (m : Machine (World V)) : Machine (Queues V) :=
  { m with queues := { m.queues.toGlobals with run := [], paused := [] } }

/-- Both levels start alike. -/
theorem Initial.represents (hinitial : m.Initial e) : Represents e m m.empty := by
  refine ⟨⟨rfl, ⟨[], [], ⟨hinitial.front, hinitial.back, hinitial.paused, nodup_nil, ?_⟩, rfl,
    rfl⟩, nodup_nil⟩, rfl, rfl, rfl, rfl, rfl⟩
  intro c hc
  cases hc

theorem Reaches.lists {p : Machine (Queues V) → Action V → Prop}
    {p' : Machine (World V) → Action V → Prop}
    (hok : ∀ m n a, Represents e m n → p' m a → p n a) (hreaches : Reaches (World.level V) p' m m')
    (hrep : Represents e m n) :
    ∃ n', Reaches (Queues.level V) p n n' ∧ Represents e m' n' := by
  induction hreaches with
  | refl => exact ⟨n, .refl n, hrep⟩
  | step _ hstepok hstep ih =>
    obtain ⟨n₁, hreaches₁, hrep₁⟩ := ih
    rcases hrep₁.step _ with ⟨hnone, -⟩ | ⟨m₂, n₂, hm, hn, hrep₂⟩
    · rw [hstep] at hnone
      cases hnone
    · rw [hstep, Option.some.injEq] at hm
      exact ⟨n₂, .step hreaches₁ (hok _ _ _ hrep₁ hstepok) hn, hm ▸ hrep₂⟩

theorem Represents.run {n' : Machine (Queues V)} {actions : List (Action V)}
    (hrep : Represents e m n) (hrun : n.run (Queues.level V) actions = some n') :
    ∃ m', m.run (World.level V) actions = some m' ∧ Represents e m' n' := by
  induction actions generalizing m n with
  | nil =>
    cases hrun
    exact ⟨m, rfl, hrep⟩
  | cons a actions ih =>
    obtain ⟨n₁, hstep, hrun⟩ := bind_eq_some_iff.mp hrun
    rcases hrep.step a with ⟨-, hnone⟩ | ⟨m₁, n₂, hm, hn, hrep₁⟩
    · rw [hnone] at hstep
      cases hstep
    · rw [hn, Option.some.injEq] at hstep
      obtain ⟨m', hrun', hrep'⟩ := ih (hstep ▸ hrep₁) hrun
      exact ⟨m', bind_eq_some_iff.mpr ⟨m₁, hm, hrun'⟩, hrep'⟩

/-- A run on lists whose steps pass a test is one on pairs whose steps meet what the test stands
for. -/
theorem Represents.runWhile {m₀ : Machine (World V)} {n' : Machine (Queues V)}
    {ok : Machine (World V) → Action V → Prop} {p : Machine (Queues V) → Action V → Bool}
    {actions : List (Action V)}
    (hok : ∀ m n a, Represents e m n → p n a = true → ok m a)
    (hreaches : Reaches (World.level V) ok m₀ m) (hrep : Represents e m n)
    (hrun : n.runWhile (Queues.level V) p actions = some n') :
    ∃ m', m.run (World.level V) actions = some m' ∧ Reaches (World.level V) ok m₀ m' ∧
      Represents e m' n' := by
  induction actions generalizing m n with
  | nil =>
    cases hrun
    exact ⟨m, rfl, hreaches, hrep⟩
  | cons a actions ih =>
    unfold Machine.runWhile at hrun
    split at hrun
    · rename_i hpasses
      obtain ⟨n₁, hstep, hrun⟩ := bind_eq_some_iff.mp hrun
      rcases hrep.step a with ⟨-, hnone⟩ | ⟨m₁, n₂, hm, hn, hrep₁⟩
      · rw [hnone] at hstep
        cases hstep
      · rw [hn, Option.some.injEq] at hstep
        obtain ⟨m', hrun', hreaches', hrep'⟩ :=
          ih (.step hreaches (hok m n a hrep hpasses) hm) (hstep ▸ hrep₁) hrun
        exact ⟨m', bind_eq_some_iff.mpr ⟨m₁, hm, hrun'⟩, hreaches', hrep'⟩
    · cases hrun

end Machine

end ChibiScheme.Thread
