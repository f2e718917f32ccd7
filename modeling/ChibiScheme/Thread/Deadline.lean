import ChibiScheme.Thread.Conservation

/-!
# Deadlines of waiting threads

A thread that waits with a deadline keeps it in the paused list, and while it is the current thread.
It loses the deadline only where the scheduler puts the current thread back into the paused list.
-/

namespace ChibiScheme.Thread

open List Option

variable {V : Type}

namespace Queues

variable {q q' q'' : Queues V} {ctx cur t : ThreadId} {d : Timeval}

/-- The thread waits and has not ended. -/
def Waiting (q : Queues V) (t : ThreadId) : Prop :=
  (q.threads t).waitp = true ∧ 0 < (q.threads t).refuel

/-! ## The phases that wake threads -/

/-- A phase that wakes threads: a thread that still waits is where it was. -/
structure Wakes (q q' : Queues V) : Prop where
  tv : ∀ t, q'.tv t = q.tv t
  refuel : ∀ t, (q'.threads t).refuel = (q.threads t).refuel
  wait : ∀ t, (q'.threads t).waitp = true → (q.threads t).waitp = true
  paused : ∀ t, (q'.threads t).waitp = true → (t ∈ q'.paused ↔ t ∈ q.paused)

theorem Wakes.refl (q : Queues V) : q.Wakes q :=
  ⟨fun _ => rfl, fun _ => rfl, fun _ hwait => hwait, fun _ _ => Iff.rfl⟩

theorem Wakes.trans (hwakes : q.Wakes q') (hwakes' : q'.Wakes q'') : q.Wakes q'' where
  tv t := (hwakes'.tv t).trans (hwakes.tv t)
  refuel t := (hwakes'.refuel t).trans (hwakes.refuel t)
  wait t hwait := hwakes.wait t (hwakes'.wait t hwait)
  paused t hwait := (hwakes'.paused t hwait).trans (hwakes.paused t (hwakes'.wait t hwait))

theorem Wakes.waiting (hwakes : q.Wakes q') (hwaiting : q'.Waiting t) : q.Waiting t :=
  ⟨hwakes.wait t hwaiting.1, hwakes.refuel t ▸ hwaiting.2⟩

theorem wakes_setThread (q : Queues V) (t : ThreadId) {wake : Context V → Context V}
    (htv : ∀ c, (wake c).timeval = c.timeval) (hrefuel : ∀ c, (wake c).refuel = c.refuel)
    (hwait : ∀ c, (wake c).waitp = false) : q.Wakes (q.setThread t wake) where
  tv := q.setThread_tv t htv
  refuel u := by
    rw [setThread_threads]
    split
    · rename_i heq
      rw [hrefuel, heq]
    · rfl
  wait u hu := by
    rw [setThread_threads] at hu
    split at hu
    · rw [hwait] at hu
      cases hu
    · exact hu
  paused _ _ := Iff.rfl

theorem wakes_wakeAll (q : Queues V) (hit : Event → Bool) {wake : Context V → Context V}
    (htv : ∀ c, (wake c).timeval = c.timeval) (hrefuel : ∀ c, (wake c).refuel = c.refuel)
    (hwait : ∀ c, (wake c).waitp = false) (queued : ThreadId → Bool) :
    q.Wakes (q.wakeAll hit wake queued) := by
  have hthreads : ∀ u, (q.wakeAll hit wake queued).threads u =
      if decide (u ∈ q.paused) && hit (q.threads u).event then wake (q.threads u)
      else q.threads u := fun _ => rfl
  refine ⟨q.setThreads_tv _ htv, fun u => ?_, fun u hu => ?_, fun u hu => ?_⟩
  · rw [hthreads]
    split
    · exact hrefuel _
    · rfl
  · rw [hthreads] at hu
    split at hu
    · rw [hwait] at hu
      cases hu
    · exact hu
  · rw [hthreads] at hu
    show u ∈ q.paused.filter (fun t => !hit (q.threads t).event) ↔ u ∈ q.paused
    rw [mem_filter, and_iff_left_iff_imp, Bool.not_eq_true']
    intro hmem
    cases hhit : hit (q.threads u).event with
    | false => rfl
    | true =>
      rw [hhit, decide_eq_true hmem, Bool.and_self, if_pos rfl, hwait] at hu
      cases hu

theorem wakes_wakeFd (q : Queues V) (ctx : ThreadId) (fd : ℤ) : q.Wakes (q.wakeFd ctx fd) := by
  unfold Queues.wakeFd
  dsimp only
  split
  · exact (q.wakes_setThread ctx Context.wakeReady_timeval (fun _ => rfl) fun _ => rfl).trans
      (wakes_wakeAll _ _ Context.wakeReady_timeval (fun _ => rfl) (fun _ => rfl) _)
  · exact wakes_wakeAll _ _ Context.wakeReady_timeval (fun _ => rfl) (fun _ => rfl) _

theorem wakes_pollLoop (q : Queues V) (ctx : ThreadId) (revents : ℕ → Bool) (i : ℕ) (k : ℤ) :
    q.Wakes (pollLoop ctx revents i k q) := by
  induction i generalizing k q with
  | zero => exact .refl q
  | succ i ih =>
    unfold Queues.pollLoop
    split
    · split
      · rename_i pfd _ _
        have hremoved : (q.wakeFd ctx pfd.fd).Wakes
            ((q.wakeFd ctx pfd.fd).onGlobals fun g => g.removePollfd i) :=
          ⟨fun _ => rfl, fun _ => rfl, fun _ hwait => hwait, fun _ _ => Iff.rfl⟩
        exact ((q.wakes_wakeFd ctx pfd.fd).trans hremoved).trans (ih _ (k - 1))
      · exact ih q k
    · exact .refl q

theorem wakes_checkJoins (q : Queues V) (ctx : ThreadId) : q.Wakes (q.checkJoins ctx) := by
  unfold Queues.checkJoins
  split
  · exact wakes_wakeAll _ _ Context.wake_timeval (fun _ => rfl) (fun _ => rfl) _
  · exact .refl q

theorem wakes_checkTimeouts (q : Queues V) (now : Timeval) : q.Wakes (q.checkTimeouts now) := by
  have hthreads : ∀ u, (q.checkTimeouts now).threads u =
      if decide (u ∈ q.paused.takeWhile (q.expired now)) then (q.threads u).wakeTimeout
      else q.threads u := fun _ => rfl
  refine ⟨q.setThreads_tv _ Context.wakeTimeout_timeval, fun u => ?_, fun u hu => ?_,
    fun u hu => ?_⟩
  · rw [hthreads]
    split <;> rfl
  · rw [hthreads] at hu
    split at hu
    · cases hu
    · exact hu
  · rw [hthreads] at hu
    show u ∈ q.paused.dropWhile (q.expired now) ↔ u ∈ q.paused
    refine ⟨fun hmem => dropWhile_subset _ hmem, fun hmem => ?_⟩
    rw [← takeWhile_append_dropWhile (p := q.expired now) (l := q.paused), mem_append] at hmem
    refine hmem.resolve_left fun hwoken => ?_
    rw [decide_eq_true hwoken, if_pos rfl] at hu
    cases hu

theorem wakes_wakePhases (q : Queues V) (ctx : ThreadId) (tick : Tick) :
    q.Wakes (q.wakePhases ctx tick) :=
  ((q.wakes_pollLoop ctx _ _ _).trans (wakes_checkJoins _ ctx)).trans
    (wakes_checkTimeouts _ tick.now)

/-! ## The scheduler -/

/-- The thread is current or paused, with this deadline. -/
def Placed (q : Queues V) (cur t : ThreadId) (d : Timeval) : Prop :=
  (t = cur ∨ t ∈ q.paused) ∧ q.tv t = d

theorem insertTimed_waiting (q : Queues V) (u : ThreadId) (timeout : Timeout) (now : Timeval) :
    (q.insertTimed u timeout now).Waiting t ↔ q.Waiting t := by
  unfold Waiting
  rw [insertTimed_waitp, insertTimed_refuel]

theorem Placed.insertTimed (hplaced : q.Placed cur t d) {u : ThreadId} {timeout : Timeout}
    (now : Timeval) (hsame : t = u → q.deadline timeout now = d) :
    (q.insertTimed u timeout now).Placed cur t d := by
  refine ⟨hplaced.1.imp id fun hmem => ?_, ?_⟩
  · exact (q.mem_paused_insertTimed u timeout now t).mpr (.inr hmem)
  · rw [insertTimed_tv]
    split
    · rename_i heq
      exact hsame heq
    · exact hplaced.2

theorem dequeue_waiting (q : Queues V) (cur : ThreadId) (now : Timeval) :
    (q.dequeue cur now).2.Waiting t ↔ q.Waiting t := by
  unfold Queues.dequeue
  split
  · split
    · dsimp only
      split
      · exact insertTimed_waiting _ cur .other now
      · exact Iff.rfl
    · exact Iff.rfl
  · split <;> exact Iff.rfl

theorem Placed.dequeue (hplaced : q.Placed cur t d) (hwaiting : q.Waiting t) (now : Timeval)
    (hempty : cur = t → t ∉ q.paused → q.run = []) :
    (q.dequeue cur now).2.Placed (q.dequeue cur now).1 t d := by
  unfold Queues.dequeue
  cases hrun : q.run with
  | cons res rest =>
    -- a queue that is not empty: the thread is in the paused list
    have hmem : t ∈ q.paused := by
      by_contra hnot
      have hcur := hplaced.1.resolve_right hnot
      rw [hempty hcur.symm hnot] at hrun
      cases hrun
    dsimp only
    split
    · dsimp only
      split
      · rename_i hpaused
        have hne : t ≠ cur := fun heq => hpaused.2 (heq ▸ hmem)
        have hplaced₁ : ({ q with run := rest } : Queues V).Placed res t d :=
          ⟨.inr hmem, hplaced.2⟩
        exact hplaced₁.insertTimed now fun heq => absurd heq hne
      · exact ⟨.inr hmem, hplaced.2⟩
    · exact ⟨.inr hmem, hplaced.2⟩
  | nil =>
    dsimp only
    split
    · rename_i hdone
      have hne : t ≠ cur := fun heq => absurd hwaiting.2 (not_lt.mpr (heq ▸ hdone))
      exact ⟨.inr (hplaced.1.resolve_left hne), hplaced.2⟩
    · exact hplaced

theorem earliest_waiting (q : Queues V) (res : ThreadId) (now : Timeval) :
    (q.earliest res now).2.Waiting t ↔ q.Waiting t := by
  unfold Queues.earliest
  split
  · split
    · dsimp only
      split
      · exact Iff.rfl
      · exact insertTimed_waiting _ res (.context res) now
    · exact Iff.rfl
  · exact Iff.rfl

theorem Placed.earliest (hplaced : q.Placed cur t d) (now : Timeval) :
    (q.earliest cur now).2.Placed (q.earliest cur now).1 t d := by
  unfold Queues.earliest
  cases hpaused : q.paused with
  | nil => exact hplaced
  | cons first rest =>
    have hmem : t = cur ∨ t = first ∨ t ∈ rest := by
      rw [← mem_cons, ← hpaused]
      exact hplaced.1
    dsimp only
    split
    · split
      · rename_i hrest
        refine ⟨?_, hplaced.2⟩
        rcases hmem with rfl | hmem
        · exact .inr hrest
        · exact hmem
      · have htv := insertTimed_tv ({ q with paused := rest } : Queues V) cur (.context cur) now t
        have hpaused' := mem_paused_insertTimed ({ q with paused := rest } : Queues V) cur
          (.context cur) now t
        refine ⟨?_, ?_⟩
        · rw [hpaused']
          rcases hmem with heq | heq | hrest
          · exact .inr (.inl heq)
          · exact .inl heq
          · exact .inr (.inr hrest)
        · rw [htv]
          split
          · rename_i heq
            rw [← hplaced.2, heq]
            rfl
          · exact hplaced.2
    · refine ⟨?_, hplaced.2⟩
      by_cases heq : t = cur
      · exact .inl heq
      · exact .inr ((mem_erase_of_ne heq).mpr (hplaced.1.resolve_left heq))

theorem nap_wakes (q : Queues V) (res : ThreadId) (now : Timeval) : q.Wakes (q.nap res now) := by
  unfold Queues.nap
  dsimp only
  split
  · exact .refl q
  · split
    · exact .refl q
    · exact q.wakes_setThread res Context.wakeTimeout_timeval (fun _ => rfl) fun _ => rfl

theorem nap_paused (q : Queues V) (res : ThreadId) (now : Timeval) :
    (q.nap res now).paused = q.paused := by
  unfold Queues.nap
  dsimp only
  split
  · rfl
  · split <;> rfl

theorem settle_waiting (q : Queues V) (cur : ThreadId) (now : Timeval)
    (hwaiting : (q.settle cur now).2.Waiting t) : q.Waiting t := by
  unfold Queues.settle at hwaiting
  split at hwaiting
  · exact (q.earliest_waiting cur now).mp ((nap_wakes _ _ now).waiting hwaiting)
  · exact hwaiting

theorem Placed.settle (hplaced : q.Placed cur t d) (now : Timeval) :
    (q.settle cur now).2.Placed (q.settle cur now).1 t d := by
  unfold Queues.settle
  split
  · have hearliest := hplaced.earliest now
    refine ⟨?_, ((nap_wakes _ _ now).tv t).trans hearliest.2⟩
    dsimp only
    rw [nap_paused]
    exact hearliest.1
  · exact hplaced

theorem Placed.scheduler (hplaced : q.Placed cur t d) (tick : Tick)
    (hempty : cur = t → t ∉ q.paused → (q.wakePhases cur tick).Waiting t →
      (q.wakePhases cur tick).run = [])
    (hwaiting : (q.scheduler cur tick).2.Waiting t) :
    (q.scheduler cur tick).2.Placed (q.scheduler cur tick).1 t d := by
  have hwakes := q.wakes_wakePhases cur tick
  unfold Queues.scheduler at hwaiting ⊢
  dsimp only at hwaiting ⊢
  generalize hwoken : q.wakePhases cur tick = q₁ at hwakes hempty hwaiting ⊢
  -- the thread waits all the way
  have hwaiting₁ : q₁.Waiting t :=
    (q₁.dequeue_waiting cur tick.now).mp (settle_waiting _ _ tick.later hwaiting)
  have hplaced₁ : q₁.Placed cur t d :=
    ⟨hplaced.1.imp id (hwakes.paused t hwaiting₁.1).mpr, (hwakes.tv t).trans hplaced.2⟩
  refine (hplaced₁.dequeue hwaiting₁ tick.now fun hcur hnot => ?_).settle tick.later
  exact hempty hcur (fun hmem => hnot ((hwakes.paused t hwaiting₁.1).mpr hmem)) hwaiting₁

/-! ## Threads that the scheduler finds to wake -/

theorem wakes_wakeFds (fds : List ℤ) (q : Queues V) : q.Wakes (wakeFds cur fds q) := by
  induction fds generalizing q with
  | nil => exact .refl q
  | cons fd fds ih => exact (q.wakes_wakeFd cur fd).trans (ih _)

theorem wakeFds_wakes_current {fds : List ℤ} (hnot : cur ∉ q.paused)
    (hready : fds.any (fun fd => (q.threads cur).event.onFd fd) = true) :
    ((wakeFds cur fds q).threads cur).waitp = false := by
  induction fds generalizing q with
  | nil => cases hready
  | cons fd fds ih =>
    have hunpaused : ∀ (q : Queues V), cur ∉ q.paused → ∀ hit wake queued,
        (q.wakeAll hit wake queued).threads cur = q.threads cur := by
      intro q hnot hit wake queued
      show (if decide (cur ∈ q.paused) && hit (q.threads cur).event then _ else _) = _
      rw [decide_eq_false hnot, Bool.false_and, if_neg Bool.false_ne_true]
    show ((wakeFds cur fds (q.wakeFd cur fd)).threads cur).waitp = false
    cases hhit : (q.threads cur).event.onFd fd with
    | true =>
      have hwoken : ((q.wakeFd cur fd).threads cur).waitp = false := by
        unfold Queues.wakeFd
        dsimp only
        rw [if_pos hhit, hunpaused (q.setThread cur .wakeReady) hnot, setThread_threads,
          if_pos rfl]
        rfl
      refine Bool.eq_false_of_not_eq_true fun hwait => ?_
      rw [(wakes_wakeFds fds _).wait cur hwait] at hwoken
      cases hwoken
    | false =>
      have hsame : (q.wakeFd cur fd).threads cur = q.threads cur := by
        unfold Queues.wakeFd
        dsimp only
        rw [if_neg (by simp [hhit]), hunpaused _ hnot]
      refine ih (fun hmem => hnot ?_) ?_
      · rw [(wakeFd_paused fun hmem => absurd hmem hnot).1] at hmem
        exact mem_of_mem_filter hmem
      · rw [hsame]
        rw [any_cons, hhit, Bool.false_or] at hready
        exact hready

theorem wakeFds_idle {fds : List ℤ}
    (hidle : ∀ t ∈ q.paused, fds.any (fun fd => (q.threads t).event.onFd fd) = false) :
    (wakeFds cur fds q).run = q.run ∧ (wakeFds cur fds q).paused = q.paused := by
  induction fds generalizing q with
  | nil => exact ⟨rfl, rfl⟩
  | cons fd fds ih =>
    simp only [any_cons, Bool.or_eq_false_iff] at hidle
    obtain ⟨hpaused, hthreads, hrun⟩ := wakeFd_paused fun hmem => (hidle cur hmem).1
    have hsame : (q.wakeFd cur fd).paused = q.paused := by
      rw [hpaused]
      exact filter_eq_self.mpr fun t ht => by simp [(hidle t ht).1]
    obtain ⟨hrun', hpaused'⟩ := ih (q := q.wakeFd cur fd) fun t ht => by
      rw [hthreads t ht]
      exact (hidle t (hsame ▸ ht)).2
    exact ⟨hrun'.trans (hrun fun t ht => (hidle t ht).1), hpaused'.trans hsame⟩

end Queues

/-- The threads in the paused list that the scheduler is going to wake: those that wait for a ready
descriptor, and of the others the first ones whose deadlines have passed. -/
def Globals.due (g : Globals V) (paused : List ThreadId) (tick : Tick) : List ThreadId :=
  paused.filter (g.isReady tick) ++ (paused.filter fun u => !g.isReady tick u).takeWhile fun u =>
    sexpContextBefore (g.threads u).timeval tick.now

namespace Queues

variable {q : Queues V} {cur t : ThreadId} {d : Timeval}

theorem wakePhases_run_of_idle {tick : Tick} (hnot : cur ∉ q.paused)
    (hwaiting : (q.wakePhases cur tick).Waiting cur)
    (hidle : q.isReady tick cur = false → q.run ++ q.due q.paused tick = []) :
    (q.wakePhases cur tick).run = [] := by
  obtain ⟨pollfds, hpoll⟩ := q.pollLoop_eq cur tick.revents (le_refl _) tick.ready
  have hwaiting' : q.Waiting cur := (q.wakes_wakePhases cur tick).waiting hwaiting
  have hready : q.isReady tick cur = false := by
    refine Bool.eq_false_of_not_eq_true fun hready => ?_
    have hwoken : ((q.checkFds cur tick).threads cur).waitp = false := by
      unfold Queues.checkFds
      rw [hpoll]
      exact wakeFds_wakes_current hnot hready
    have hrest : (q.checkFds cur tick).Wakes (q.wakePhases cur tick) :=
      (wakes_checkJoins _ cur).trans (wakes_checkTimeouts _ tick.now)
    rw [hrest.wait cur hwaiting.1] at hwoken
    cases hwoken
  have hempty := hidle hready
  unfold Globals.due at hempty
  simp only [append_eq_nil_iff] at hempty
  obtain ⟨hrun, hnone, hexpired⟩ := hempty
  have hnone' : ∀ t ∈ q.paused, q.isReady tick t = false := by
    intro t ht
    exact Bool.eq_false_of_not_eq_true (filter_eq_nil_iff.mp hnone t ht)
  have hall : (q.paused.filter fun u => !q.isReady tick u) = q.paused :=
    filter_eq_self.mpr fun t ht => by simp [hnone' t ht]
  rw [hall] at hexpired
  obtain ⟨hrun₁, hpaused₁⟩ : (q.checkFds cur tick).run = q.run ∧
      (q.checkFds cur tick).paused = q.paused := by
    unfold Queues.checkFds
    rw [hpoll]
    exact wakeFds_idle hnone'
  have htv : ∀ t, (q.checkFds cur tick).tv t = q.tv t := (q.wakes_pollLoop cur _ _ _).tv
  have hrefuel : ((q.checkFds cur tick).threads cur).refuel = (q.threads cur).refuel :=
    (q.wakes_pollLoop cur _ _ _).refuel cur
  unfold Queues.wakePhases Queues.checkJoins
  rw [hrefuel, if_neg (not_le.mpr hwaiting'.2)]
  show (q.checkFds cur tick).run ++ (q.checkFds cur tick).paused.takeWhile
    ((q.checkFds cur tick).expired tick.now) = []
  have hsame : (q.checkFds cur tick).expired tick.now =
      fun u => sexpContextBefore (q.threads u).timeval tick.now := by
    funext u
    exact congrArg (fun tv => sexpContextBefore tv tick.now) (htv u)
  rw [hrun₁, hrun, hpaused₁, hsame, hexpired, append_nil]

/-! ## Operations -/

theorem Placed.wakes {q' : Queues V} (hplaced : q.Placed cur t d) (hwakes : q.Wakes q')
    (hwaiting : q'.Waiting t) : q'.Placed cur t d :=
  ⟨hplaced.1.imp id (hwakes.paused t hwaiting.1).mpr, (hwakes.tv t).trans hplaced.2⟩

theorem wakes_wakeFirst (q : Queues V) (event : Event) : q.Wakes (q.wakeFirst event).2 := by
  unfold Queues.wakeFirst
  split
  · rename_i u _
    have hwoken := q.wakes_setThread u Context.wake_timeval (fun _ => rfl) fun _ => rfl
    refine ⟨hwoken.tv, hwoken.refuel, hwoken.wait, fun t hwait => ?_⟩
    refine mem_erase_of_ne ?_
    rintro rfl
    have hwait' : ((q.setThread t Context.wake).threads t).waitp = true := hwait
    rw [setThread_threads, if_pos rfl] at hwait'
    cases hwait'
  · exact .refl q

theorem wakes_unlockFirst (q : Queues V) (ctx : ThreadId) (mutex : ℕ) :
    q.Wakes (q.unlockFirst ctx mutex) := by
  unfold Queues.unlockFirst
  split
  · have hunlocked : q.Wakes (q.onGlobals fun g => g.setMutex mutex ⟨false, some ctx⟩) :=
      ⟨fun _ => rfl, fun _ => rfl, fun _ hwait => hwait, fun _ _ => Iff.rfl⟩
    exact hunlocked.trans (wakes_wakeFirst _ _)
  · exact .refl q

theorem wakes_broadcast (q : Queues V) (condvar : Event) : q.Wakes (q.broadcast condvar) := by
  unfold Queues.broadcast
  generalize q.paused.length + 1 = turns
  induction turns generalizing q with
  | zero => exact .refl q
  | succ turns ih =>
    unfold Queues.broadcastLoop
    dsimp only
    split
    · exact (q.wakes_wakeFirst condvar).trans (ih _)
    · exact q.wakes_wakeFirst condvar

theorem setThread_of_ne (q : Queues V) {u : ThreadId} (hne : t ≠ u) (f : Context V → Context V) :
    (q.setThread u f).threads t = q.threads t := by
  rw [setThread_threads, if_neg hne]

theorem Placed.block (hplaced : q.Placed cur t d) (hne : t ≠ cur) (event : Event)
    (timeout : Timeout) (now : Timeval) : (q.block cur event timeout now).Placed cur t d := by
  let wait := fun c : Context V => { c with waitp := true, event := event }
  have hwait : (q.setThread cur wait).Placed cur t d :=
    ⟨hplaced.1, (q.setThread_tv cur (f := wait) (fun _ => rfl) t).trans hplaced.2⟩
  exact hwait.insertTimed now fun heq => absurd heq hne

theorem block_waiting (q : Queues V) (hne : t ≠ cur) (event : Event) (timeout : Timeout)
    (now : Timeval) : (q.block cur event timeout now).Waiting t ↔ q.Waiting t := by
  let wait := fun c : Context V => { c with waitp := true, event := event }
  have hinsert := (q.setThread cur wait).insertTimed_waiting (t := t) cur timeout now
  have hsame : (q.setThread cur wait).Waiting t ↔ q.Waiting t := by
    unfold Waiting
    rw [q.setThread_of_ne hne]
  exact hinsert.trans hsame

theorem terminateOne_of_ne {u : ThreadId} (hne : t ≠ u) (q : Queues V) (ctx : ThreadId) :
    (q.terminateOne ctx u).threads t = q.threads t ∧
      (t ∈ (q.terminateOne ctx u).paused ↔ t ∈ q.paused) := by
  have hmarked : (q.markTerminated ctx u).threads t = q.threads t ∧
      (q.markTerminated ctx u).paused = q.paused := by
    unfold Queues.markTerminated
    split
    · exact ⟨q.setThread_of_ne hne _, rfl⟩
    · exact ⟨rfl, rfl⟩
  rw [Queues.terminateOne_eq]
  generalize q.markTerminated ctx u = q' at hmarked ⊢
  obtain ⟨hthreads, hpaused⟩ := hmarked
  split
  · constructor
    · show ((q'.delete u).setThread u fun c => { c with errorp := false }).threads t = _
      rw [setThread_of_ne _ hne, ← hthreads]
      rfl
    · show t ∈ q'.paused.erase u ↔ t ∈ q.paused
      rw [mem_erase_of_ne hne, hpaused]
  · exact ⟨hthreads, by rw [hpaused]⟩

theorem terminateOne_refuel (q : Queues V) (ctx u : ThreadId) :
    ((q.threads t).refuel ≤ 0 → ((q.terminateOne ctx u).threads t).refuel ≤ 0) ∧
      (0 < (q.threads ctx).refuel → ((q.terminateOne ctx u).threads u).refuel = 0) := by
  have hmarked : ((q.threads t).refuel ≤ 0 → ((q.markTerminated ctx u).threads t).refuel ≤ 0) ∧
      (0 < (q.threads ctx).refuel → ((q.markTerminated ctx u).threads u).refuel = 0) := by
    unfold Queues.markTerminated
    constructor
    · intro hdone
      split
      · rw [setThread_threads]
        split
        · exact le_refl 0
        · exact hdone
      · exact hdone
    · intro hpos
      rw [if_pos hpos, setThread_threads, if_pos rfl]
  have hstart : ∀ (q : Queues V) (v : ThreadId),
      (((q.delete u).start u).threads v).refuel = (q.threads v).refuel := by
    intro q v
    show (((q.delete u).setThread u fun c => { c with errorp := false }).threads v).refuel = _
    rw [setThread_threads]
    split
    · rename_i heq
      rw [heq]
      rfl
    · rfl
  rw [Queues.terminateOne_eq]
  generalize q.markTerminated ctx u = q' at hmarked ⊢
  split
  · rw [hstart, hstart]
    exact hmarked
  · exact hmarked

/-- The threads to be terminated are marked before they leave the paused list, unless the current
thread is one of them and comes first. -/
theorem Placed.terminate (hplaced : q.Placed cur t d) (hpos : 0 < (q.threads cur).refuel)
    (threads : List ThreadId)
    (hmarked : t ∈ threads → t ∈ threads.takeWhile fun u => decide (u ≠ cur))
    (hwaiting : (threads.foldl (fun q u => q.terminateOne cur u) q).Waiting t) :
    (threads.foldl (fun q u => q.terminateOne cur u) q).Placed cur t d := by
  have hkeeps : ∀ (q : Queues V) (u : ThreadId), t ≠ u → q.Placed cur t d →
      (q.terminateOne cur u).Placed cur t d := by
    intro q u hne' hplaced
    obtain ⟨hthreads, hpaused⟩ := terminateOne_of_ne hne' q cur
    refine ⟨hplaced.1.imp id hpaused.mpr, ?_⟩
    rw [← hplaced.2]
    exact congrArg Context.timeval hthreads
  have hrest : ∀ (threads : List ThreadId) (q : Queues V), t ∉ threads → q.Placed cur t d →
      (threads.foldl (fun q u => q.terminateOne cur u) q).Placed cur t d := by
    intro threads
    induction threads with
    | nil => exact fun q _ hplaced => hplaced
    | cons u threads ih =>
      intro q hnot hplaced
      rw [mem_cons, not_or] at hnot
      exact ih _ hnot.2 (hkeeps q u hnot.1 hplaced)
  have hdead : ∀ (threads : List ThreadId) (q : Queues V), (q.threads t).refuel ≤ 0 →
      ((threads.foldl (fun q u => q.terminateOne cur u) q).threads t).refuel ≤ 0 := by
    intro threads
    induction threads with
    | nil => exact fun q hdone => hdone
    | cons u threads ih => exact fun q hdone => ih _ ((q.terminateOne_refuel cur u).1 hdone)
  induction threads generalizing q with
  | nil => exact hplaced
  | cons u threads ih =>
    by_cases heq : t = u
    · have hzero := (q.terminateOne_refuel (t := t) cur u).2 hpos
      rw [← heq] at hzero
      have hdone := hdead threads (q.terminateOne cur u) (by rw [← heq]; exact hzero.le)
      exact absurd hwaiting.2 (not_lt.mpr hdone)
    · have hplaced' := hkeeps q u heq hplaced
      by_cases hcur : u = cur
      · refine hrest threads _ (fun hmem => ?_) hplaced'
        have hnone := hmarked (mem_cons_of_mem u hmem)
        rw [takeWhile_cons, hcur] at hnone
        simp at hnone
      · refine ih hplaced' ?_ (fun hmem => ?_) hwaiting
        · rw [(terminateOne_of_ne (fun h => hcur h.symm) q cur).1]
          exact hpos
        · have hsome := hmarked (mem_cons_of_mem u hmem)
          rw [takeWhile_cons, if_pos (by simpa using hcur), mem_cons] at hsome
          exact hsome.resolve_left heq

end Queues

/-! ## Runs -/

/-- The condition on a step under which a thread that waits with a deadline keeps it: it is not
unblocked by a termination that does not mark it, and it does not wait as the current thread, in no
queue, while the scheduler has another thread to run. -/
def Globals.KeepsDeadline (g : Globals V) (run paused : List ThreadId) (cur t : ThreadId) :
    Action V → Prop
  | .perform _ (.terminate thread) =>
    t ∈ thread :: (g.threads thread).children →
      t ∈ (thread :: (g.threads thread).children).takeWhile fun u => decide (u ≠ cur)
  | .perform _ _ => True
  | .schedule tick =>
    cur = t → t ∉ paused → g.isReady tick t = false → run ++ g.due paused tick = []

namespace Queues

variable {q : Queues V} {cur t : ThreadId} {d : Timeval}

theorem Placed.perform {m : Machine (Queues V)} (hplaced : m.queues.Placed m.current t d)
    (hrunning : m.Running (Queues.level V)) (hne : t ≠ m.current) (now : Timeval)
    (op : Operation V)
    (hkeeps : m.queues.KeepsDeadline m.queues.run m.queues.paused m.current t (.perform now op))
    (hwaiting : (m.queues.perform m.current now op).Waiting t) :
    (m.queues.perform m.current now op).Placed m.current t d := by
  have hset : ∀ f : Context V → Context V, (∀ c, (f c).timeval = c.timeval) →
      (m.queues.setThread m.current f).Placed m.current t d := fun f hf =>
    ⟨hplaced.1, (m.queues.setThread_tv _ hf t).trans hplaced.2⟩
  cases op with
  | compute arg1 => exact hset _ fun _ => rfl
  | finish errorp => exact hset _ fun _ => rfl
  | start u =>
    refine ⟨hplaced.1, ?_⟩
    exact (m.queues.setThread_tv u (f := fun c => { c with errorp := false })
      (fun _ => rfl) t).trans hplaced.2
  | terminate u => exact hplaced.terminate hrunning.2.1 _ hkeeps hwaiting
  | join u timeout =>
    show (m.queues.join m.current u timeout now).Placed _ t d
    unfold Queues.join
    split
    · exact hplaced
    · exact (hset (fun c => { c with timeoutp := false }) fun _ => rfl).block hne _ timeout now
  | sleep timeout =>
    cases timeout with
    | none => exact hset _ fun _ => rfl
    | some timeout =>
      show (m.queues.sleep m.current (some timeout) now).Placed _ t d
      unfold Queues.sleep
      dsimp only
      split
      · exact hplaced.block hne _ timeout now
      · exact hset _ fun _ => rfl
  | lock mutex timeout owner =>
    show (m.queues.lock m.current mutex timeout owner now).Placed _ t d
    unfold Queues.lock
    split
    · exact hplaced.block hne _ timeout now
    · exact hplaced
  | unlock mutex condvar timeout =>
    have hwakes := m.queues.wakes_unlockFirst m.current mutex
    cases condvar with
    | none => exact hplaced.wakes hwakes hwaiting
    | some condvar =>
      have hwaiting' := (block_waiting _ hne condvar timeout now).mp hwaiting
      exact (hplaced.wakes hwakes hwaiting').block hne condvar timeout now
  | signal condvar => exact hplaced.wakes (m.queues.wakes_wakeFirst condvar) hwaiting
  | broadcast condvar => exact hplaced.wakes (m.queues.wakes_broadcast condvar) hwaiting
  | block portorfd timeout =>
    show (m.queues.blocker m.current portorfd timeout now).Placed _ t d
    unfold Queues.blocker
    split
    · exact hplaced
    rename_i fd _
    dsimp only
    split
    · have hpolled : (m.queues.onGlobals fun g =>
          g.insertPollfd fd (World.pollEvents portorfd)).Placed m.current t d := by
        refine ⟨hplaced.1, ?_⟩
        show ((m.queues.insertPollfd fd _).threads t).timeval = d
        rw [Globals.insertPollfd_threads]
        exact hplaced.2
      exact hpolled.block hne portorfd timeout now
    · exact hplaced.block hne portorfd timeout now

end Queues

namespace Machine

variable {n n' : Machine (Queues V)} {t : ThreadId} {d : Timeval}

theorem endLoop_waiting (hwaiting : (n.endLoop (Queues.level V)).queues.Waiting t) :
    n.queues.Waiting t := by
  have hset : ∀ (q : Queues V) (u : ThreadId) (f : Context V → Context V),
      (∀ c, (f c).waitp = c.waitp) → (∀ c, 0 < (f c).refuel → 0 < c.refuel) →
      (q.setThread u f).Waiting t → q.Waiting t := by
    intro q u f hwait hrefuel hwaiting
    unfold Queues.Waiting at hwaiting ⊢
    rw [Queues.setThread_threads] at hwaiting
    split at hwaiting
    · rename_i heq
      rw [heq, ← hwait]
      exact ⟨hwaiting.1, hrefuel _ hwaiting.2⟩
    · exact hwaiting
  have hresult := hset n.queues n.current (fun c => { c with result := some c.arg1 })
    (fun _ => rfl) fun _ => id
  unfold endLoop at hwaiting
  dsimp only at hwaiting
  split at hwaiting
  · exact hresult hwaiting
  · refine hresult ?_
    exact hset _ n.current (fun c => { c with refuel := 0 }) (fun _ => rfl)
      (fun _ hpos => absurd hpos (lt_irrefl _)) hwaiting

theorem endLoop_placed (hplaced : n.queues.Placed n.current t d) :
    (n.endLoop (Queues.level V)).queues.Placed (n.endLoop (Queues.level V)).current t d := by
  have hresult : (n.queues.setThread n.current fun c =>
      { c with result := some c.arg1 }).Placed n.current t d :=
    ⟨hplaced.1, (n.queues.setThread_tv n.current
      (f := fun c => { c with result := some c.arg1 }) (fun _ => rfl) t).trans hplaced.2⟩
  unfold endLoop
  dsimp only
  split
  · exact hresult
  · exact ⟨hresult.1, (Queues.setThread_tv _ n.current
      (f := fun c => { c with refuel := 0 }) (fun _ => rfl) t).trans hresult.2⟩

/-- A step that keeps the deadline keeps the thread in its place. -/
theorem placed_step {a : Action V} (hplaced : n.queues.Placed n.current t d)
    (hraised : n.raised = true → t ≠ n.current) (hwaiting : n.queues.Waiting t)
    (hkeeps : n.queues.KeepsDeadline n.queues.run n.queues.paused n.current t a)
    (hstep : n.step (Queues.level V) a = some n') (hwaiting' : n'.queues.Waiting t) :
    n'.queues.Placed n'.current t d ∧ (n'.raised = true → t ≠ n'.current) := by
  cases a with
  | perform now op =>
    obtain ⟨hrunning, -, rfl⟩ := step_perform hstep
    have hne : t ≠ n.current := by
      rcases hrunning.2.2 with hrun | hgoes
      · rintro rfl
        have hrun' : (n.queues.threads n.current).waitp = false := hrun
        have hwait := hwaiting.1
        rw [hrun'] at hwait
        cases hwait
      · exact hraised hgoes
    have hperformed : (n.performed now op).queues.Waiting t →
        (n.performed now op).queues.Placed (n.performed now op).current t d :=
      hplaced.perform hrunning hne now op hkeeps
    cases op with
    | finish errorp =>
      refine ⟨endLoop_placed (hperformed (endLoop_waiting hwaiting')), fun _ => ?_⟩
      unfold after endLoop
      dsimp only
      split <;> exact hne
    | compute | start | terminate | join | sleep | lock | unlock | signal | broadcast | block =>
      exact ⟨hperformed hwaiting', fun _ => hne⟩
  | schedule tick =>
    obtain ⟨-, rfl⟩ := step_schedule hstep
    have hscheduled : (n.scheduled tick).queues.Waiting t →
        (n.scheduled tick).queues.Placed (n.scheduled tick).current t d := by
      refine hplaced.scheduler tick fun hcur hnot hwoken => ?_
      subst hcur
      exact Queues.wakePhases_run_of_idle hnot hwoken (hkeeps rfl hnot)
    unfold resumed at hwaiting' ⊢
    split
    · rename_i hdone
      rw [if_pos hdone] at hwaiting'
      refine ⟨endLoop_placed (hscheduled (endLoop_waiting hwaiting')), ?_⟩
      unfold endLoop
      dsimp only
      split <;> exact fun hgoes => Bool.noConfusion hgoes
    · rename_i hdone
      rw [if_neg hdone] at hwaiting'
      exact ⟨hscheduled hwaiting', fun hgoes => Bool.noConfusion hgoes⟩

/-- So does a run. -/
theorem placed_reaches (hplaced : n.queues.Placed n.current t d)
    (hraised : n.raised = true → t ≠ n.current)
    (hreaches : n.Reaches (Queues.level V)
      (fun n a => n.queues.Waiting t ∧
        n.queues.KeepsDeadline n.queues.run n.queues.paused n.current t a) n')
    (hwaiting : n'.queues.Waiting t) :
    n'.queues.Placed n'.current t d ∧ (n'.raised = true → t ≠ n'.current) := by
  induction hreaches with
  | refl => exact ⟨hplaced, hraised⟩
  | step _ hok hstep ih =>
    obtain ⟨hplaced', hraised'⟩ := ih hok.1
    exact placed_step hplaced' hraised' hok.1 hok.2 hstep hwaiting

end Machine

/-! ## The thread that blocks -/

/-- The thread waits and has not ended. -/
def Machine.Waiting (m : Machine (World V)) (t : ThreadId) : Prop :=
  (m.queues.threads t).waitp = true ∧ 0 < (m.queues.threads t).refuel

/-- The action leaves the deadline of the waiting thread alone. -/
def Machine.KeepsDeadline (t : ThreadId) (m : Machine (World V)) (a : Action V) : Prop :=
  m.Waiting t ∧
    m.queues.KeepsDeadline m.queues.runThreads m.queues.pausedThreads m.current t a

theorem Queues.block_placed (q : Queues V) (cur : ThreadId) (event : Event) (timeout : Timeout)
    (now : Timeval) :
    (q.block cur event timeout now).Placed cur cur (q.deadline timeout now) := by
  let wait := fun c : Context V => { c with waitp := true, event := event }
  refine ⟨.inl rfl, ?_⟩
  have htv := insertTimed_tv (q.setThread cur wait) cur timeout now cur
  rw [if_pos rfl, deadline_congr (q.setThread_tv cur (f := wait) fun _ => rfl)] at htv
  exact htv

theorem Queues.perform_placed {q : Queues V} {cur : ThreadId} {now : Timeval} {op : Operation V}
    {timeout : Timeout} (hpauses : q.pauses op = some timeout) :
    (q.perform cur now op).Placed cur cur (q.deadline timeout now) := by
  cases op with
  | compute | start | terminate | signal | broadcast | finish => cases hpauses
  | join u timeout' =>
    change (if (q.threads u).refuel ≤ 0 then none else some timeout') = some timeout at hpauses
    show (q.join cur u timeout' now).Placed _ _ _
    unfold Queues.join
    split at hpauses
    · cases hpauses
    rename_i hrefuel
    cases hpauses
    rw [if_neg hrefuel]
    let reset := fun c : Context V => { c with timeoutp := false }
    have hblock := (q.setThread cur reset).block_placed cur (.thread u) timeout now
    rwa [deadline_congr (q.setThread_tv cur (f := reset) fun _ => rfl)] at hblock
  | sleep timeout' =>
    obtain ⟨rfl, hreal⟩ := Option.filter_eq_some_iff.mp hpauses
    show (q.sleep cur (some timeout) now).Placed _ _ _
    unfold Queues.sleep
    dsimp only
    rw [if_pos hreal]
    exact q.block_placed cur .none timeout now
  | lock mutex timeout' owner =>
    change (if (q.mutexes mutex).lockp then some timeout' else none) = some timeout at hpauses
    show (q.lock cur mutex timeout' owner now).Placed _ _ _
    unfold Queues.lock
    split at hpauses
    · rename_i hlocked
      cases hpauses
      rw [if_pos hlocked]
      exact q.block_placed cur (.mutex mutex) timeout now
    · cases hpauses
  | unlock mutex condvar timeout' =>
    obtain ⟨condvar, rfl, rfl⟩ := map_eq_some_iff.mp hpauses
    have hblock := (q.unlockFirst cur mutex).block_placed cur condvar timeout' now
    rwa [deadline_congr (q.unlockFirst_tv cur mutex)] at hblock
  | block portorfd timeout' =>
    obtain ⟨fd, hfd, rfl⟩ := map_eq_some_iff.mp hpauses
    show (q.blocker cur portorfd timeout' now).Placed _ _ _
    unfold Queues.blocker
    rw [hfd]
    dsimp only
    split
    · have hblock := (q.onGlobals fun g =>
        g.insertPollfd fd (World.pollEvents portorfd)).block_placed cur portorfd timeout' now
      rwa [deadline_congr (q := q) fun t => by
        show ((q.insertPollfd fd _).threads t).timeval = _
        rw [Globals.insertPollfd_threads]
        rfl] at hblock
    · exact q.block_placed cur portorfd timeout' now

/-- A thread that blocks with a timeout keeps the deadline that is computed for it in every run under
the condition, until it is woken or terminated. -/
theorem Machine.deadline_kept {e : Tail} {m m₀ m₁ m₂ : Machine (World V)} {now : Timeval}
    {op : Operation V} {timeout : Timeout} (hinitial : m.Initial e)
    (hreaches : m.Reaches (World.level V) (fun _ _ => True) m₀)
    (hpauses : m₀.queues.pauses op = some timeout)
    (hdeadline : m₀.queues.deadline timeout now ≠ .zero)
    (hblock : m₀.step (World.level V) (.perform now op) = some m₁)
    (hwaits : m₁.Reaches (World.level V) (Machine.KeepsDeadline m₀.current) m₂)
    (hwaiting : m₂.Waiting m₀.current) :
    (m₀.current = m₂.current ∨ m₀.current ∈ m₂.queues.pausedThreads) ∧
      (m₂.queues.threads m₀.current).timeval = m₀.queues.deadline timeout now ∧
      (m₂.queues.threads m₀.current).timeval ≠ .zero := by
  obtain ⟨n₀, -, hrep₀⟩ := hreaches.lists (p := fun _ _ => True) (fun _ _ _ _ _ => trivial)
    hinitial.represents
  rcases hrep₀.step (.perform now op) with ⟨hnone, -⟩ | ⟨m', n₁, hm, hn, hrep₁⟩
  · rw [hblock] at hnone
    cases hnone
  · obtain rfl : m₁ = m' := some.inj (hblock.symm.trans hm)
    -- the condition on cells is the condition on lists
    have hok : ∀ (m : Machine (World V)) (n : Machine (Queues V)) a, Machine.Represents e m n →
        Machine.KeepsDeadline m₀.current m a → n.queues.Waiting n₀.current ∧
          n.queues.KeepsDeadline n.queues.run n.queues.paused n.current n₀.current a := by
      intro m n a hrep hkeeps
      unfold Machine.KeepsDeadline Machine.Waiting at hkeeps
      rwa [hrep.queues.pausedThreads, hrep.queues.runThreads, hrep.queues.globals, hrep.current,
        hrep₀.current] at hkeeps
    obtain ⟨n₂, hreaches₂, hrep₂⟩ := hwaits.lists hok hrep₁
    have hpauses' : n₀.queues.pauses op = some timeout := by
      rw [← hrep₀.queues.globals]
      exact hpauses
    obtain ⟨-, -, rfl⟩ := step_perform hn
    have hperformed : (n₀.performed now op).queues.Placed n₀.current n₀.current
        (n₀.queues.deadline timeout now) := Queues.perform_placed hpauses'
    have hplaced : ((n₀.performed now op).after (Queues.level V) op).queues.Placed
        ((n₀.performed now op).after (Queues.level V) op).current n₀.current
        (n₀.queues.deadline timeout now) := by
      cases op with
      | finish errorp => cases hpauses'
      | compute | start | terminate | join | sleep | lock | unlock | signal | broadcast | block =>
        exact hperformed
    have hwaiting' : n₂.queues.Waiting n₀.current := by
      unfold Machine.Waiting at hwaiting
      rwa [hrep₂.queues.globals, hrep₀.current] at hwaiting
    -- an operation that pauses the thread with a timeout raises no error
    have hraised : ((n₀.performed now op).after (Queues.level V) op).raised = false := by
      have hblocked := raisedBy_of_pauses hpauses'
      cases op with
      | finish errorp => cases hpauses'
      | compute | start | terminate | join | sleep | lock | unlock | signal | broadcast | block =>
        exact hblocked
    obtain ⟨⟨hplace, htv⟩, -⟩ := Machine.placed_reaches hplaced
      (fun hgoes => absurd hgoes (by rw [hraised]; exact Bool.false_ne_true)) hreaches₂ hwaiting'
    rw [hrep₀.queues.globals] at hdeadline
    rw [hrep₂.queues.pausedThreads, hrep₂.queues.globals, hrep₀.queues.globals, hrep₀.current,
      hrep₂.current]
    exact ⟨hplace, htv, fun hzero => hdeadline (htv.symm.trans hzero)⟩

/-- The root thread starts another one and sleeps until the clock shows 15. -/
def sleepUntil15 : List (Action Unit) :=
  [.perform ⟨5, 0⟩ (.start 1), .perform ⟨5, 0⟩ (.sleep (some (.fixnum 10)))]

/-- The other thread waits for input, for longer.  The scheduler takes the sleeping thread for the
current one; then there is input. -/
def otherInput : List (Action Unit) :=
  let idle : Tick := ⟨0, fun _ => false, ⟨5, 0⟩, ⟨5, 0⟩, epoch_five⟩
  [.schedule idle, .perform ⟨5, 0⟩ (.block (.fixnum 3) (.fixnum 20)), .schedule idle,
    .schedule ⟨1, fun i => decide (i = 0), ⟨6, 0⟩, ⟨6, 0⟩, by decide⟩]

/-- A descriptor that is ready for another thread clears the deadline of a sleeper. -/
theorem otherInput_loses_deadline :
    ∃ m₁ m₂, (Machine.fresh .null (fun _ => ()) ()).run (World.level Unit) sleepUntil15 = some m₁ ∧
      m₁.Waiting 0 ∧ (m₁.queues.threads 0).timeval = ⟨15, 0⟩ ∧
      (Machine.fresh .null (fun _ => ()) ()).run (World.level Unit) (sleepUntil15 ++ otherInput) =
        some m₂ ∧
      m₂.current = 1 ∧ m₂.Waiting 0 ∧ 0 ∈ m₂.queues.pausedThreads ∧
      (m₂.queues.threads 0).timeval = .zero := by
  let start : Machine (World Unit) := Machine.fresh .null (fun _ => ()) ()
  have hinitial : start.Initial .null := Machine.fresh_initial _ _ _
  have hlists₁ : (start.empty.run (Queues.level Unit) sleepUntil15).map (fun n =>
      ((n.queues.threads 0).waitp, (n.queues.threads 0).refuel, n.queues.tv 0)) =
        some (true, 500, ⟨15, 0⟩) := by decide
  have hlists₂ : (start.empty.run (Queues.level Unit) (sleepUntil15 ++ otherInput)).map (fun n =>
      (n.current, (n.queues.threads 0).waitp, (n.queues.threads 0).refuel, n.queues.paused,
        n.queues.tv 0)) = some (1, true, 500, [0], .zero) := by decide
  obtain ⟨n₁, hrun₁, hqueues₁⟩ := map_eq_some_iff.mp hlists₁
  obtain ⟨n₂, hrun₂, hqueues₂⟩ := map_eq_some_iff.mp hlists₂
  simp only [Prod.mk.injEq] at hqueues₁ hqueues₂
  obtain ⟨hwait₁, hrefuel₁, htv₁⟩ := hqueues₁
  obtain ⟨hcurrent, hwait₂, hrefuel₂, hpaused, htv₂⟩ := hqueues₂
  obtain ⟨m₁, hpairs₁, hrep₁⟩ := hinitial.represents.run hrun₁
  obtain ⟨m₂, hpairs₂, hrep₂⟩ := hinitial.represents.run hrun₂
  unfold Machine.Waiting
  refine ⟨m₁, m₂, hpairs₁, ?_, ?_, hpairs₂, hrep₂.current.trans hcurrent, ?_, ?_, ?_⟩
  · rw [hrep₁.queues.globals, hwait₁, hrefuel₁]
    decide
  · rw [hrep₁.queues.globals]
    exact htv₁
  · rw [hrep₂.queues.globals, hwait₂, hrefuel₂]
    decide
  · rw [hrep₂.queues.pausedThreads, hpaused]
    exact mem_singleton_self 0
  · rw [hrep₂.queues.globals]
    exact htv₂

/-- The other thread sleeps for longer than the root thread, which the scheduler takes out of the
paused list. -/
def longerSleep : List (Action Unit) :=
  let idle : Tick := ⟨0, fun _ => false, ⟨5, 0⟩, ⟨5, 0⟩, epoch_five⟩
  [.schedule idle, .perform ⟨5, 0⟩ (.sleep (some (.fixnum 20))), .schedule idle]

/-- The root thread goes on to wait: nothing terminates a thread, and the scheduler does not pick the
root thread for want of others. -/
def rootWaits (n : Machine (Queues Unit)) (a : Action Unit) : Bool :=
  decide ((n.queues.threads 0).waitp = true ∧ 0 < (n.queues.threads 0).refuel) &&
    match a with
    | .perform _ (.terminate _) => false
    | .perform _ _ => true
    | .schedule tick => decide (n.current = 0 → 0 ∉ n.queues.paused →
        n.queues.isReady tick 0 = false → n.queues.run ++ n.queues.due n.queues.paused tick = [])

/-- A longer sleep of another thread leaves the deadline alone. -/
theorem deadline_kept_longerSleep :
    ∃ m₀ m₁ m₂, (Machine.fresh .null (fun _ => ()) ()).step (World.level Unit)
        (.perform ⟨5, 0⟩ (.start 1)) = some m₀ ∧
      m₀.step (World.level Unit) (.perform ⟨5, 0⟩ (.sleep (some (.fixnum 10)))) = some m₁ ∧
      m₁.run (World.level Unit) longerSleep = some m₂ ∧
      m₂.queues.pausedThreads = [1] ∧ m₂.Waiting 0 ∧
      (m₂.queues.threads 0).timeval = ⟨15, 0⟩ := by
  let start : Machine (World Unit) := Machine.fresh .null (fun _ => ()) ()
  have hinitial : start.Initial .null := Machine.fresh_initial _ _ _
  have hok : ∀ (m : Machine (World Unit)) (n : Machine (Queues Unit)) (a : Action Unit),
      Machine.Represents .null m n → rootWaits n a = true → Machine.KeepsDeadline 0 m a := by
    intro m n a hrep hpasses
    unfold Machine.KeepsDeadline Machine.Waiting
    rw [hrep.queues.pausedThreads, hrep.queues.runThreads, hrep.queues.globals, hrep.current]
    obtain ⟨hwaits, hpasses⟩ := Bool.and_eq_true_iff.mp hpasses
    refine ⟨of_decide_eq_true hwaits, ?_⟩
    cases a with
    | perform now op =>
      cases op with
      | terminate u => cases hpasses
      | compute | start | join | sleep | lock | unlock | signal | broadcast | block | finish =>
        exact True.intro
    | schedule tick =>
      exact (of_decide_eq_true hpasses : n.current = 0 → 0 ∉ n.queues.paused →
        n.queues.isReady tick 0 = false → n.queues.run ++ n.queues.due n.queues.paused tick = [])
  have hlists : (start.empty.run (Queues.level Unit)
      [.perform ⟨5, 0⟩ (.start 1), .perform ⟨5, 0⟩ (.sleep (some (.fixnum 10)))]).bind (fun n =>
        (n.runWhile (Queues.level Unit) rootWaits longerSleep).map fun n' =>
          (n'.queues.paused, (n'.queues.threads 0).waitp, (n'.queues.threads 0).refuel)) =
      some ([1], true, 500) := by decide
  obtain ⟨n₁, hrun₁, hrun₂⟩ := bind_eq_some_iff.mp hlists
  obtain ⟨n₂, hrun₂, hqueues⟩ := map_eq_some_iff.mp hrun₂
  simp only [Prod.mk.injEq] at hqueues
  obtain ⟨m₁, hpairs₁, hrep₁⟩ := hinitial.represents.run hrun₁
  obtain ⟨m₀, hstart, hpairs₁⟩ := bind_eq_some_iff.mp hpairs₁
  obtain ⟨m', hblock, hend⟩ := bind_eq_some_iff.mp hpairs₁
  cases hend
  obtain ⟨m₂, hpairs₂, hreaches, hrep₂⟩ :=
    Machine.Represents.runWhile hok (.refl m₁) hrep₁ hrun₂
  have hwaiting : m₂.Waiting 0 := by
    unfold Machine.Waiting
    rw [hrep₂.queues.globals, hqueues.2.1, hqueues.2.2]
    decide
  have hroot : m₀.current = 0 := by cases hstart; rfl
  have hdeadline : m₀.queues.deadline (.fixnum 10) ⟨5, 0⟩ = ⟨15, 0⟩ := by cases hstart; rfl
  have hpauses : m₀.queues.pauses (.sleep (some (.fixnum 10))) = some (.fixnum 10) := rfl
  have hkept := (Machine.deadline_kept hinitial (.step (.refl _) trivial hstart) hpauses
    (by rw [hdeadline]; decide) hblock
    (by rw [hroot]; exact hreaches) (by rw [hroot]; exact hwaiting)).2.1
  rw [hroot] at hkept
  refine ⟨m₀, m₁, m₂, hstart, hblock, hpairs₂, ?_, hwaiting, hkept⟩
  rw [hrep₂.queues.pausedThreads]
  exact hqueues.1

end ChibiScheme.Thread
