import ChibiScheme.Thread.Deadline

/-!
# The record of a terminated thread

A join of a terminated thread reads its error flag and its result.  The flag is reset where the
thread is put back into the run queue, and the result is overwritten where the thread gets to the end
of its code, so the error of a termination stays only as long as the thread is not picked again.
-/

namespace ChibiScheme.Thread

open List

variable {V : Type}

/-- What `thread-join!` does: it waits, or it raises or returns the end result. -/
inductive JoinOutcome (V : Type) where
  | blocks
  | raises (result : Option V)
  | returns (result : Option V)
deriving DecidableEq

/-- `%thread-join!`, and `thread-result` once that is true. -/
def Context.joinOutcome (c : Context V) : JoinOutcome V :=
  if 0 < c.refuel then .blocks
  else if c.errorp then .raises c.result
  else .returns c.result

/-! ## Records -/

/-- The fields of a thread that a join reads, and what the end of its code makes of them. -/
structure Context.SameRecord (c c' : Context V) : Prop where
  refuel : c'.refuel = c.refuel
  errorp : c'.errorp = c.errorp
  result : c'.result = c.result
  arg1 : c'.arg1 = c.arg1

theorem Context.SameRecord.refl (c : Context V) : c.SameRecord c := ⟨rfl, rfl, rfl, rfl⟩

theorem Context.SameRecord.trans {c c' c'' : Context V} (hsame : c.SameRecord c')
    (hsame' : c'.SameRecord c'') : c.SameRecord c'' where
  refuel := hsame'.refuel.trans hsame.refuel
  errorp := hsame'.errorp.trans hsame.errorp
  result := hsame'.result.trans hsame.result
  arg1 := hsame'.arg1.trans hsame.arg1

namespace Queues

variable {q q' q'' : Queues V} {cur t u : ThreadId}

/-- The records of all threads, and the error of a termination, are the same. -/
structure SameRecords (q q' : Queues V) : Prop where
  threads : ∀ t, (q.threads t).SameRecord (q'.threads t)
  terminateError : q'.terminateError = q.terminateError

theorem SameRecords.refl (q : Queues V) : q.SameRecords q := ⟨fun _ => .refl _, rfl⟩

theorem SameRecords.trans (hsame : q.SameRecords q') (hsame' : q'.SameRecords q'') :
    q.SameRecords q'' :=
  ⟨fun t => (hsame.threads t).trans (hsame'.threads t),
    hsame'.terminateError.trans hsame.terminateError⟩

theorem sameRecords_queues (q : Queues V) (run paused : List ThreadId) :
    q.SameRecords { q with run := run, paused := paused } :=
  ⟨fun _ => .refl _, rfl⟩

theorem SameRecords.requeue (hsame : q.SameRecords q') (run paused : List ThreadId) :
    q.SameRecords { q' with run := run, paused := paused } :=
  hsame.trans (q'.sameRecords_queues run paused)

theorem sameRecords_setThread (q : Queues V) (u : ThreadId) {f : Context V → Context V}
    (hf : ∀ c : Context V, c.SameRecord (f c)) : q.SameRecords (q.setThread u f) := by
  refine ⟨fun t => ?_, rfl⟩
  rw [setThread_threads]
  split
  · rename_i heq
    rw [heq]
    exact hf _
  · exact .refl _

theorem sameRecords_insertTimed (q : Queues V) (u : ThreadId) (timeout : Timeout) (now : Timeval) :
    q.SameRecords (q.insertTimed u timeout now) :=
  (q.sameRecords_setThread u (f := fun c => { c with timeval := q.deadline timeout now })
    fun _ => ⟨rfl, rfl, rfl, rfl⟩).requeue _ _

theorem sameRecords_block (q : Queues V) (u : ThreadId) (event : Event) (timeout : Timeout)
    (now : Timeval) : q.SameRecords (q.block u event timeout now) :=
  (q.sameRecords_setThread u (f := fun c => { c with waitp := true, event := event })
    fun _ => ⟨rfl, rfl, rfl, rfl⟩).trans (sameRecords_insertTimed _ u timeout now)

theorem sameRecords_wakeFirst (q : Queues V) (event : Event) :
    q.SameRecords (q.wakeFirst event).2 := by
  unfold Queues.wakeFirst
  split
  · rename_i t _
    exact (q.sameRecords_setThread t (f := Context.wake) fun _ => ⟨rfl, rfl, rfl, rfl⟩).requeue _ _
  · exact .refl q

theorem sameRecords_unlockFirst (q : Queues V) (ctx : ThreadId) (mutex : ℕ) :
    q.SameRecords (q.unlockFirst ctx mutex) := by
  unfold Queues.unlockFirst
  split
  · have hunlocked : q.SameRecords (q.onGlobals fun g => g.setMutex mutex ⟨false, some ctx⟩) :=
      ⟨fun _ => .refl _, rfl⟩
    exact hunlocked.trans (sameRecords_wakeFirst _ _)
  · exact .refl q

theorem sameRecords_broadcast (q : Queues V) (condvar : Event) :
    q.SameRecords (q.broadcast condvar) := by
  unfold Queues.broadcast
  generalize q.paused.length + 1 = turns
  induction turns generalizing q with
  | zero => exact .refl q
  | succ turns ih =>
    unfold Queues.broadcastLoop
    dsimp only
    split
    · exact (q.sameRecords_wakeFirst condvar).trans (ih _)
    · exact q.sameRecords_wakeFirst condvar

/-! ### The scheduler -/

theorem sameRecords_setThreads (q : Queues V) (some : ThreadId → Bool)
    {f : Context V → Context V} (hf : ∀ c : Context V, c.SameRecord (f c)) :
    q.SameRecords (q.setThreads some f) := by
  refine ⟨fun t => ?_, rfl⟩
  show (q.threads t).SameRecord (if some t then f (q.threads t) else q.threads t)
  split
  · exact hf _
  · exact .refl _

theorem sameRecords_wakeAll (q : Queues V) (hit : Event → Bool) {wake : Context V → Context V}
    (hwake : ∀ c : Context V, c.SameRecord (wake c)) (queued : ThreadId → Bool) :
    q.SameRecords (q.wakeAll hit wake queued) :=
  (q.sameRecords_setThreads _ hwake).requeue _ _

theorem sameRecords_wakeFd (q : Queues V) (ctx : ThreadId) (fd : ℤ) :
    q.SameRecords (q.wakeFd ctx fd) := by
  have hwake : ∀ c : Context V, c.SameRecord c.wakeReady := fun _ => ⟨rfl, rfl, rfl, rfl⟩
  unfold Queues.wakeFd
  dsimp only
  split
  · exact (q.sameRecords_setThread ctx hwake).trans (sameRecords_wakeAll _ _ hwake _)
  · exact sameRecords_wakeAll _ _ hwake _

theorem sameRecords_pollLoop (q : Queues V) (ctx : ThreadId) (revents : ℕ → Bool) (i : ℕ) (k : ℤ) :
    q.SameRecords (pollLoop ctx revents i k q) := by
  induction i generalizing k q with
  | zero => exact .refl q
  | succ i ih =>
    unfold Queues.pollLoop
    split
    · split
      · rename_i pfd _ _
        have hremoved : (q.wakeFd ctx pfd.fd).SameRecords
            ((q.wakeFd ctx pfd.fd).onGlobals fun g => g.removePollfd i) :=
          ⟨fun _ => .refl _, rfl⟩
        exact ((q.sameRecords_wakeFd ctx pfd.fd).trans hremoved).trans (ih _ (k - 1))
      · exact ih q k
    · exact .refl q

theorem sameRecords_wakePhases (q : Queues V) (ctx : ThreadId) (tick : Tick) :
    q.SameRecords (q.wakePhases ctx tick) := by
  have hjoins : ∀ q : Queues V, q.SameRecords (q.checkJoins ctx) := by
    intro q
    unfold Queues.checkJoins
    split
    · have hwake : ∀ c : Context V, c.SameRecord c.wake := fun _ => ⟨rfl, rfl, rfl, rfl⟩
      exact q.sameRecords_wakeAll _ hwake _
    · exact .refl q
  have htimeouts : ∀ q : Queues V, q.SameRecords (q.checkTimeouts tick.now) := fun q =>
    (q.sameRecords_setThreads _ (f := Context.wakeTimeout)
      fun _ => ⟨rfl, rfl, rfl, rfl⟩).requeue _ _
  exact ((q.sameRecords_pollLoop ctx _ _ _).trans (hjoins _)).trans (htimeouts _)

theorem sameRecords_dequeue (q : Queues V) (cur : ThreadId) (now : Timeval) :
    q.SameRecords (q.dequeue cur now).2 := by
  unfold Queues.dequeue
  split
  · rename_i res rest _
    split
    · dsimp only
      split
      · exact (q.sameRecords_queues rest q.paused).trans (sameRecords_insertTimed _ cur .other now)
      · exact q.sameRecords_queues rest q.paused
    · exact q.sameRecords_queues (rest ++ [cur]) q.paused
  · split <;> exact .refl q

theorem sameRecords_settle (q : Queues V) (cur : ThreadId) (now : Timeval) :
    q.SameRecords (q.settle cur now).2 := by
  have hearliest : q.SameRecords (q.earliest cur now).2 := by
    unfold Queues.earliest
    split
    · rename_i first rest _
      split
      · dsimp only
        split
        · exact q.sameRecords_queues q.run rest
        · exact (q.sameRecords_queues q.run rest).trans
            (sameRecords_insertTimed _ cur (.context cur) now)
      · exact q.sameRecords_queues q.run (q.paused.erase cur)
    · exact .refl q
  have hnap : ∀ (q : Queues V) (res : ThreadId), q.SameRecords (q.nap res now) := by
    intro q res
    unfold Queues.nap
    dsimp only
    split
    · exact .refl q
    · split
      · exact .refl q
      · exact q.sameRecords_setThread res fun _ => ⟨rfl, rfl, rfl, rfl⟩
  unfold Queues.settle
  split
  · exact hearliest.trans (hnap _ _)
  · exact .refl q

theorem sameRecords_scheduler (q : Queues V) (cur : ThreadId) (tick : Tick) :
    q.SameRecords (q.scheduler cur tick).2 :=
  ((q.sameRecords_wakePhases cur tick).trans (sameRecords_dequeue _ cur tick.now)).trans
    (sameRecords_settle _ _ tick.later)

/-! ## Terminated threads -/

/-- The thread is terminated and a join of it raises the value. -/
structure Dead (q : Queues V) (t : ThreadId) (v : V) : Prop where
  refuel : (q.threads t).refuel ≤ 0
  errorp : (q.threads t).errorp = true
  result : (q.threads t).result = some v
  terminateError : q.terminateError = v

variable {v : V}

theorem Dead.sameRecords (hdead : q.Dead t v) (hsame : q.SameRecords q') : q'.Dead t v where
  refuel := (hsame.threads t).refuel.symm ▸ hdead.refuel
  errorp := (hsame.threads t).errorp.trans hdead.errorp
  result := (hsame.threads t).result.trans hdead.result
  terminateError := hsame.terminateError.trans hdead.terminateError

theorem Dead.setThread_of_ne (hdead : q.Dead t v) (hne : t ≠ u) (f : Context V → Context V) :
    (q.setThread u f).Dead t v := by
  obtain ⟨hrefuel, herrorp, hresult, hterminate⟩ := hdead
  have hsame := q.setThread_of_ne hne f
  exact ⟨hsame ▸ hrefuel, hsame ▸ herrorp, hsame ▸ hresult, hterminate⟩

theorem terminateOne_record (hnot : t ∉ q.paused) (ctx : ThreadId) :
    (q.terminateOne ctx t).threads t = (if 0 < (q.threads ctx).refuel then
      { q.threads t with errorp := true, result := some q.terminateError, refuel := 0 }
      else q.threads t) := by
  have hpaused : t ∉ (q.markTerminated ctx t).paused := by
    unfold Queues.markTerminated
    split <;> exact hnot
  rw [Queues.terminateOne_eq, if_neg hpaused]
  unfold Queues.markTerminated
  split
  · rw [setThread_threads, if_pos rfl]
  · rfl

theorem terminateOne_terminateError (q : Queues V) (ctx u : ThreadId) :
    (q.terminateOne ctx u).terminateError = q.terminateError := by
  unfold Queues.terminateOne
  dsimp only
  split <;> split <;> rfl

theorem terminateOne_paused_subset (q : Queues V) (ctx u : ThreadId) :
    (q.terminateOne ctx u).paused ⊆ q.paused := by
  unfold Queues.terminateOne
  dsimp only
  split <;> split
  · exact erase_subset
  · exact List.Subset.refl _
  · exact erase_subset
  · exact List.Subset.refl _

theorem Dead.terminateAll (hdead : q.Dead t v) (ctx : ThreadId) (threads : List ThreadId)
    (hnot : t ∈ threads → t ∉ q.paused) :
    (threads.foldl (fun q u => q.terminateOne ctx u) q).Dead t v := by
  induction threads generalizing q with
  | nil => exact hdead
  | cons u threads ih =>
    refine ih ?_ fun hmem hpaused => hnot (mem_cons_of_mem u hmem)
      (q.terminateOne_paused_subset ctx u hpaused)
    by_cases heq : t = u
    · subst heq
      have hrecord := terminateOne_record (hnot mem_cons_self) ctx
      have hterminate := q.terminateOne_terminateError ctx t
      split at hrecord
      · refine ⟨?_, ?_, ?_, hterminate.trans hdead.terminateError⟩
        · rw [hrecord]
        · rw [hrecord]
        · rw [hrecord, ← hdead.terminateError]
      · refine ⟨?_, ?_, ?_, hterminate.trans hdead.terminateError⟩
        · rw [hrecord]
          exact hdead.refuel
        · rw [hrecord]
          exact hdead.errorp
        · rw [hrecord]
          exact hdead.result
    · have hsame := (terminateOne_of_ne heq q ctx).1
      refine ⟨?_, ?_, ?_, (q.terminateOne_terminateError ctx u).trans hdead.terminateError⟩
      · rw [hsame]
        exact hdead.refuel
      · rw [hsame]
        exact hdead.errorp
      · rw [hsame]
        exact hdead.result

theorem terminate_dead (hpos : 0 < (q.threads cur).refuel) (hnot : t ∉ q.paused) :
    (q.terminate cur t).Dead t q.terminateError := by
  unfold Queues.terminate
  rw [foldl_cons]
  have hrecord := terminateOne_record hnot cur
  rw [if_pos hpos] at hrecord
  have hdead : (q.terminateOne cur t).Dead t q.terminateError := by
    refine ⟨?_, ?_, ?_, q.terminateOne_terminateError cur t⟩
    · rw [hrecord]
    · rw [hrecord]
    · rw [hrecord]
  exact hdead.terminateAll cur _ fun _ hpaused =>
    hnot (q.terminateOne_paused_subset cur t hpaused)

/-- The condition on a step under which the error of a termination stays: the thread is not
terminated again while it is paused, and it is not picked by the scheduler, unless the error is what
it has on top of its stack. -/
def KeepsRecord (q : Queues V) (cur t : ThreadId) : Action V → Prop
  | .perform _ (.terminate u) => t ∈ u :: (q.threads u).children → t ∉ q.paused
  | .perform _ _ => True
  | .schedule tick => (q.scheduler cur tick).1 = t → (q.threads t).arg1 = q.terminateError

theorem Dead.perform {m : Machine (Queues V)} (hdead : m.queues.Dead t v)
    (hne : t ≠ m.current) (hstarted : t ∈ m.started) (now : Timeval) (op : Operation V)
    (hmay : m.mayStart op) (hkeeps : m.queues.KeepsRecord m.current t (.perform now op)) :
    (m.queues.perform m.current now op).Dead t v := by
  cases op with
  | compute | finish => exact hdead.setThread_of_ne hne _
  | start u =>
    have hne' : t ≠ u := by
      rintro rfl
      exact hmay hstarted
    have hreset := hdead.setThread_of_ne hne' fun c => { c with errorp := false }
    exact hreset.sameRecords (sameRecords_queues _ _ _)
  | terminate u => exact hdead.terminateAll _ _ hkeeps
  | join u timeout =>
    refine hdead.sameRecords ?_
    show m.queues.SameRecords (m.queues.join m.current u timeout now)
    unfold Queues.join
    split
    · exact .refl _
    · let reset := fun c : Context V => { c with timeoutp := false }
      exact (m.queues.sameRecords_setThread m.current (f := reset)
        fun _ => ⟨rfl, rfl, rfl, rfl⟩).trans (sameRecords_block _ _ _ timeout now)
  | sleep timeout =>
    cases timeout with
    | none =>
      exact hdead.sameRecords (m.queues.sameRecords_setThread m.current
        (f := fun c => { c with waitp := true }) fun _ => ⟨rfl, rfl, rfl, rfl⟩)
    | some timeout =>
      refine hdead.sameRecords ?_
      show m.queues.SameRecords (m.queues.sleep m.current (some timeout) now)
      unfold Queues.sleep
      dsimp only
      split
      · exact sameRecords_block _ _ _ timeout now
      · exact m.queues.sameRecords_setThread m.current (f := fun c => { c with waitp := true })
          fun _ => ⟨rfl, rfl, rfl, rfl⟩
  | lock mutex timeout owner =>
    refine hdead.sameRecords ?_
    show m.queues.SameRecords (m.queues.lock m.current mutex timeout owner now)
    unfold Queues.lock
    split
    · exact sameRecords_block _ _ _ timeout now
    · exact ⟨fun _ => .refl _, rfl⟩
  | unlock mutex condvar timeout =>
    have hsame := m.queues.sameRecords_unlockFirst m.current mutex
    cases condvar with
    | none => exact hdead.sameRecords hsame
    | some condvar =>
      exact hdead.sameRecords (hsame.trans (sameRecords_block _ _ condvar timeout now))
  | signal condvar => exact hdead.sameRecords (m.queues.sameRecords_wakeFirst condvar)
  | broadcast condvar => exact hdead.sameRecords (m.queues.sameRecords_broadcast condvar)
  | block portorfd timeout =>
    refine hdead.sameRecords ?_
    show m.queues.SameRecords (m.queues.blocker m.current portorfd timeout now)
    unfold Queues.blocker
    split
    · exact .refl _
    rename_i fd _
    dsimp only
    split
    · have hpolled : m.queues.SameRecords (m.queues.onGlobals fun g =>
          g.insertPollfd fd (World.pollEvents portorfd)) := by
        refine ⟨fun t => ?_, m.queues.insertPollfd_terminateError fd _⟩
        show (m.queues.threads t).SameRecord ((m.queues.insertPollfd fd _).threads t)
        rw [Globals.insertPollfd_threads]
        exact .refl _
      exact hpolled.trans (sameRecords_block _ _ portorfd timeout now)
    · exact sameRecords_block _ _ portorfd timeout now

end Queues

/-! ## Runs -/

namespace Machine

variable {n n' : Machine (Queues V)} {t : ThreadId} {v : V}

theorem dead_endLoop (hdead : n.queues.Dead t v)
    (harg : n.current = t → (n.queues.threads t).arg1 = v) :
    (n.endLoop (Queues.level V)).queues.Dead t v := by
  have hresult : (n.queues.setThread n.current fun c => { c with result := some c.arg1 }).Dead t
      v := by
    by_cases heq : t = n.current
    · subst heq
      obtain ⟨hrefuel, herrorp, -, hterminate⟩ := hdead
      have hself := n.queues.setThread_threads n.current n.current
        fun c => { c with result := some c.arg1 }
      rw [if_pos rfl] at hself
      refine ⟨?_, ?_, ?_, hterminate⟩
      · rw [hself]
        exact hrefuel
      · rw [hself]
        exact herrorp
      · rw [hself, ← harg rfl]
    · exact hdead.setThread_of_ne heq _
  unfold endLoop
  dsimp only
  split
  · exact hresult
  by_cases heq : t = n.current
  · subst heq
    obtain ⟨-, herrorp, hvalue, hterminate⟩ := hresult
    have hself := (n.queues.setThread n.current fun c =>
      { c with result := some c.arg1 }).setThread_threads n.current n.current
        fun c => { c with refuel := 0 }
    rw [if_pos rfl] at hself
    refine ⟨?_, ?_, ?_, hterminate⟩
    · show (((n.queues.setThread n.current fun c => { c with result := some c.arg1 }).setThread
        n.current fun c => { c with refuel := 0 }).threads n.current).refuel ≤ 0
      rw [hself]
    · show (((n.queues.setThread n.current fun c => { c with result := some c.arg1 }).setThread
        n.current fun c => { c with refuel := 0 }).threads n.current).errorp = true
      rw [hself]
      exact herrorp
    · show (((n.queues.setThread n.current fun c => { c with result := some c.arg1 }).setThread
        n.current fun c => { c with refuel := 0 }).threads n.current).result = some v
      rw [hself]
      exact hvalue
  · exact hresult.setThread_of_ne heq _

/-- A step leaves a dead thread's record alone. -/
theorem dead_step {a : Action V} (hdead : n.queues.Dead t v) (hstarted : t ∈ n.started)
    (hkeeps : n.queues.KeepsRecord n.current t a)
    (hstep : n.step (Queues.level V) a = some n') : n'.queues.Dead t v ∧ t ∈ n'.started := by
  cases a with
  | perform now op =>
    obtain ⟨hrunning, hmay, rfl⟩ := step_perform hstep
    have hne : t ≠ n.current := by
      rintro rfl
      exact absurd hrunning.2.1 (not_lt.mpr hdead.refuel)
    have hperformed : (n.performed now op).queues.Dead t v :=
      hdead.perform hne hstarted now op hmay hkeeps
    cases op with
    | finish errorp =>
      refine ⟨dead_endLoop hperformed fun heq => absurd heq.symm hne, ?_⟩
      unfold after endLoop
      dsimp only
      split <;> exact hstarted
    | start u => exact ⟨hperformed, mem_cons_of_mem u hstarted⟩
    | compute | terminate | join | sleep | lock | unlock | signal | broadcast | block =>
      exact ⟨hperformed, hstarted⟩
  | schedule tick =>
    obtain ⟨-, rfl⟩ := step_schedule hstep
    have hsame := n.queues.sameRecords_scheduler n.current tick
    have hscheduled : (n.scheduled tick).queues.Dead t v := hdead.sameRecords hsame
    unfold resumed
    split
    · refine ⟨dead_endLoop hscheduled fun heq => ?_, ?_⟩
      · rw [← hdead.terminateError, ← hkeeps heq]
        exact (hsame.threads t).arg1
      · unfold endLoop
        dsimp only
        split <;> exact hstarted
    · exact ⟨hscheduled, hstarted⟩

/-- So does a run. -/
theorem dead_reaches (hdead : n.queues.Dead t v) (hstarted : t ∈ n.started)
    (hreaches : n.Reaches (Queues.level V) (fun n a => n.queues.KeepsRecord n.current t a) n') :
    n'.queues.Dead t v := by
  suffices hsuff : n'.queues.Dead t v ∧ t ∈ n'.started from hsuff.1
  induction hreaches with
  | refl => exact ⟨hdead, hstarted⟩
  | step _ hkeeps hstep ih => exact dead_step ih.1 ih.2 hkeeps hstep

end Machine

/-! ## Joins of a terminated thread -/

/-- The step leaves the thread the error of its termination. -/
def Machine.KeepsRecord (t : ThreadId) (m : Machine (World V)) : Action V → Prop
  | .perform _ (.terminate u) =>
    t ∈ u :: (m.queues.threads u).children → t ∉ m.queues.pausedThreads
  | .perform _ _ => True
  | .schedule tick => ∀ w, m.queues.sexpScheduler m.current tick = some (t, w) →
      (m.queues.threads t).arg1 = m.queues.terminateError

theorem Queues.Dead.joinOutcome {q : Queues V} {t : ThreadId} {v : V} (hdead : q.Dead t v) :
    (q.threads t).joinOutcome = .raises (some v) := by
  unfold Context.joinOutcome
  rw [if_neg (not_lt.mpr hdead.refuel), if_pos hdead.errorp, hdead.result]

/-- The termination of a thread that is not paused.  If the thread could still run, every join raises
the error of the termination as long as the scheduler does not pick the thread; if it had finished,
its record stays only if that is the error of a termination already. -/
theorem Machine.termination_of_keepsRecord {e : Tail} {m m₀ m₁ : Machine (World V)}
    {now : Timeval} {t : ThreadId} (hinitial : m.Initial e)
    (hreaches : m.Reaches (World.level V) (fun _ _ => True) m₀)
    (hterminate : m₀.step (World.level V) (.perform now (.terminate t)) = some m₁)
    (hnot : t ∉ m₀.queues.pausedThreads) :
    (t ∈ m₀.started → 0 < (m₀.queues.threads t).refuel →
      ∀ m₂, m₁.Reaches (World.level V) (Machine.KeepsRecord t) m₂ →
        (m₂.queues.threads t).joinOutcome = .raises (some m₀.queues.terminateError)) ∧
    ((m₀.queues.threads t).refuel ≤ 0 →
      ((m₁.queues.threads t).errorp = (m₀.queues.threads t).errorp ∧
          (m₁.queues.threads t).result = (m₀.queues.threads t).result ↔
        (m₀.queues.threads t).errorp = true ∧
          (m₀.queues.threads t).result = some m₀.queues.terminateError)) := by
  obtain ⟨n₀, -, hrep₀⟩ := hreaches.lists (p := fun _ _ => True) (fun _ _ _ _ _ => trivial)
    hinitial.represents
  rcases hrep₀.step (.perform now (.terminate t)) with ⟨hnone, -⟩ | ⟨m', n₁, hm, hn, hrep₁⟩
  · rw [hterminate] at hnone
    cases hnone
  · obtain rfl : m₁ = m' := Option.some.inj (hterminate.symm.trans hm)
    obtain ⟨hrunning, -, rfl⟩ := step_perform hn
    rw [hrep₀.queues.pausedThreads] at hnot
    -- from here on the thread is dead: the record is made and nobody keeps it waiting
    have hdead : (n₀.queues.terminate n₀.current t).Dead t n₀.queues.terminateError :=
      Queues.terminate_dead hrunning.2.1 hnot
    have hrecord : (m₁.queues.threads t).errorp = true ∧
        (m₁.queues.threads t).result = some m₀.queues.terminateError := by
      rw [hrep₁.queues.globals, hrep₀.queues.globals]
      exact ⟨hdead.errorp, hdead.result⟩
    refine ⟨fun hstarted _ m₂ hreaches₂ => ?_, fun _ => ?_⟩
    · -- the condition on cells is the condition on lists
      have hok : ∀ (m : Machine (World V)) (n : Machine (Queues V)) a, Machine.Represents e m n →
          Machine.KeepsRecord t m a → n.queues.KeepsRecord n.current t a := by
        intro m n a hrep hkeeps
        cases a with
        | perform now op =>
          cases op with
          | terminate u =>
            unfold Machine.KeepsRecord at hkeeps
            rw [hrep.queues.pausedThreads, hrep.queues.globals] at hkeeps
            exact hkeeps
          | compute | start | join | sleep | lock | unlock | signal | broadcast | block
          | finish => trivial
        | schedule tick =>
          intro hpicks
          obtain ⟨w, hschedule, -⟩ := hrep.queues.scheduler m.current tick
          rw [hrep.current, hpicks, ← hrep.current] at hschedule
          have harg := hkeeps w hschedule
          rwa [hrep.queues.globals] at harg
      obtain ⟨n₂, hlists, hrep₂⟩ := hreaches₂.lists hok hrep₁
      have hstarted' : t ∈ n₀.started := hrep₀.started ▸ hstarted
      have hdead₂ := dead_reaches (n := n₀.performed now (.terminate t)) hdead hstarted' hlists
      rw [hrep₂.queues.globals, hrep₀.queues.globals]
      exact hdead₂.joinOutcome
    · constructor
      · rintro ⟨herrorp, hresult⟩
        exact ⟨herrorp ▸ hrecord.1, hresult ▸ hrecord.2⟩
      · rintro ⟨herrorp, hresult⟩
        exact ⟨hrecord.1.trans herrorp.symm, hrecord.2.trans hresult.symm⟩

/-- A machine whose threads have numbers on top of their stacks. -/
def numbered : Machine (World ℕ) := Machine.fresh .null (fun t => t + 7) 99

/-- A run of the scheduler in which no descriptor is ready. -/
def idleAt5 : Tick := ⟨0, fun _ => false, ⟨5, 0⟩, ⟨5, 0⟩, epoch_five⟩

/-- The root thread terminates one that is in the run queue, and then that is picked. -/
def terminateRunnable : List (Action ℕ) :=
  [.perform ⟨5, 0⟩ (.start 1), .perform ⟨5, 0⟩ (.terminate 1), .schedule idleAt5]

/-- The root thread terminates one that sleeps. -/
def terminateBlocked : List (Action ℕ) :=
  [.perform ⟨5, 0⟩ (.start 1), .schedule idleAt5, .perform ⟨5, 0⟩ (.sleep (some (.fixnum 10))),
    .schedule idleAt5, .perform ⟨5, 0⟩ (.terminate 1)]

/-- A thread is started, computes and ends. -/
def finishThread : List (Action ℕ) :=
  [.perform ⟨5, 0⟩ (.start 1), .schedule idleAt5, .perform ⟨5, 0⟩ (.compute 5),
    .perform ⟨5, 0⟩ (.finish false), .schedule idleAt5]

/-- A join of a terminated thread raises or returns, as the thread was runnable or blocked. -/
theorem terminated_joins_differ :
    (∃ m', numbered.run (World.level ℕ) terminateRunnable = some m' ∧
      (m'.queues.threads 1).joinOutcome = .raises (some 8)) ∧
    (∃ m', numbered.run (World.level ℕ) terminateBlocked = some m' ∧
      (m'.queues.threads 1).joinOutcome = .returns (some 99)) ∧
    (∃ m', numbered.run (World.level ℕ) finishThread = some m' ∧
      (m'.queues.threads 1).joinOutcome = .returns (some 5)) ∧
    ∃ m', numbered.run (World.level ℕ) (finishThread ++ [.perform ⟨5, 0⟩ (.terminate 1)]) =
        some m' ∧
      (m'.queues.threads 1).joinOutcome = .raises (some 99) := by
  have hinitial : numbered.Initial .null := Machine.fresh_initial _ _ _
  have hrun : ∀ (actions : List (Action ℕ)) (outcome : JoinOutcome ℕ),
      (numbered.empty.run (Queues.level ℕ) actions).map (fun n => (n.queues.threads 1).joinOutcome) =
        some outcome →
      ∃ m', numbered.run (World.level ℕ) actions = some m' ∧
        (m'.queues.threads 1).joinOutcome = outcome := by
    intro actions outcome hlists
    obtain ⟨n', hrun, houtcome⟩ := Option.map_eq_some_iff.mp hlists
    obtain ⟨m', hpairs, hrep⟩ := hinitial.represents.run hrun
    refine ⟨m', hpairs, ?_⟩
    rw [hrep.queues.globals]
    exact houtcome
  exact ⟨hrun _ _ (by decide), hrun _ _ (by decide), hrun _ _ (by decide), hrun _ _ (by decide)⟩

/-- The root thread has started two others and terminates the second one; then the scheduler picks the
first one. -/
def terminateSecond : List (Action ℕ) :=
  [.perform ⟨5, 0⟩ (.start 2), .perform ⟨5, 0⟩ (.start 1)]

/-- No operation terminates a thread, and the scheduler does not pick thread 1. -/
def leavesFirst (n : Machine (Queues ℕ)) : Action ℕ → Bool
  | .perform _ (.terminate _) => false
  | .perform _ _ => true
  | .schedule tick => decide ((n.queues.scheduler n.current tick).1 ≠ 1)

/-- A terminated thread stays terminated, and its join raises. -/
theorem termination_of_second :
    ∃ m₀ m₁ m₂, numbered.run (World.level ℕ) terminateSecond = some m₀ ∧
      m₀.step (World.level ℕ) (.perform ⟨5, 0⟩ (.terminate 1)) = some m₁ ∧
      m₁.run (World.level ℕ) [.schedule idleAt5, .perform ⟨5, 0⟩ (.join 1 .other)] = some m₂ ∧
      m₂.current = 2 ∧ (m₂.queues.threads 1).joinOutcome = .raises (some 99) := by
  have hinitial : numbered.Initial .null := Machine.fresh_initial _ _ _
  have hok : ∀ (m : Machine (World ℕ)) (n : Machine (Queues ℕ)) (a : Action ℕ),
      Machine.Represents .null m n → leavesFirst n a = true → Machine.KeepsRecord 1 m a := by
    intro m n a hrep hpasses
    cases a with
    | perform now op =>
      cases op with
      | terminate u => cases hpasses
      | compute | start | join | sleep | lock | unlock | signal | broadcast | block | finish =>
        exact True.intro
    | schedule tick =>
      intro w hpicks
      obtain ⟨w', hschedule, -⟩ := hrep.queues.scheduler m.current tick
      rw [hpicks, hrep.current, Option.some.injEq, Prod.mk.injEq] at hschedule
      exact absurd hschedule.1.symm (of_decide_eq_true hpasses)
  have hlists : (numbered.empty.run (Queues.level ℕ)
      (terminateSecond ++ [.perform ⟨5, 0⟩ (.terminate 1)])).bind (fun n =>
        (n.runWhile (Queues.level ℕ) leavesFirst
          [.schedule idleAt5, .perform ⟨5, 0⟩ (.join 1 .other)]).map fun n' => n'.current) =
      some 2 := by decide
  obtain ⟨n₁, hrun₁, hrun₂⟩ := Option.bind_eq_some_iff.mp hlists
  obtain ⟨n₂, hrun₂, hcurrent⟩ := Option.map_eq_some_iff.mp hrun₂
  obtain ⟨m₁, hpairs₁, hrep₁⟩ := hinitial.represents.run hrun₁
  obtain ⟨m', hstart₂, hpairs₁⟩ := Option.bind_eq_some_iff.mp hpairs₁
  obtain ⟨m₀, hstart₁, hpairs₁⟩ := Option.bind_eq_some_iff.mp hpairs₁
  obtain ⟨m'', hterminate, hend⟩ := Option.bind_eq_some_iff.mp hpairs₁
  cases hend
  obtain ⟨m₂, hpairs₂, hreaches, hrep₂⟩ :=
    Machine.Represents.runWhile hok (.refl m₁) hrep₁ hrun₂
  have hrun₀ : numbered.run (World.level ℕ) terminateSecond = some m₀ :=
    Option.bind_eq_some_iff.mpr ⟨m', hstart₂, Option.bind_eq_some_iff.mpr ⟨m₀, hstart₁, rfl⟩⟩
  have hstarted : numbered.Reaches (World.level ℕ) (fun _ _ => True) m₀ :=
    .step (.step (.refl _) trivial hstart₂) trivial hstart₁
  have hstate : numbered.run (World.level ℕ) terminateSecond |>.any fun m =>
      decide (1 ∈ m.started) && decide (0 < (m.queues.threads 1).refuel) &&
        decide (1 ∉ m.queues.pausedThreads) && decide (m.queues.terminateError = 99) := by decide
  rw [hrun₀] at hstate
  simp only [Option.any_some, Bool.and_eq_true, decide_eq_true_eq] at hstate
  obtain ⟨⟨⟨hbegan, hpos⟩, hnot⟩, herror⟩ := hstate
  have hjoin := (Machine.termination_of_keepsRecord hinitial hstarted hterminate hnot).1 hbegan hpos
    m₂ hreaches
  rw [herror] at hjoin
  exact ⟨m₀, m₁, m₂, hrun₀, hterminate, hpairs₂, hrep₂.current.trans hcurrent, hjoin⟩

end ChibiScheme.Thread
