import ChibiScheme.Thread.Order

/-!
# The places of the threads

A started thread that has not terminated is the current one, or it is queued once.  Every operation
of the current thread keeps this.
-/

namespace ChibiScheme.Thread

open List

variable {V : Type}

/-! ## The invariant -/

/-- The started threads that can still run are the current one and those in the queues, which are
each in one place; all paused threads wait. -/
structure Queues.Conserved (q : Queues V) (cur : ThreadId) (started : List ThreadId) : Prop where
  nodup : (q.run ++ q.paused).Nodup
  current : cur ∉ q.run
  waiting : ∀ t ∈ q.paused, (q.threads t).waitp = true
  queued : ∀ t ∈ q.run ++ q.paused, t ∈ started
  began : cur ∈ started
  kept : ∀ t ∈ started, 0 < (q.threads t).refuel → t = cur ∨ t ∈ q.run ++ q.paused

namespace Queues

variable {q q' : Queues V} {cur t : ThreadId} {started : List ThreadId}

theorem insertTimed_perm (q : Queues V) (t : ThreadId) (timeout : Timeout) (now : Timeval) :
    (q.insertTimed t timeout now).paused.Perm (t :: q.paused.erase t) := by
  let behind := ((q.delete t).setThread t fun c =>
    { c with timeval := q.deadline timeout now }).behind timeout (q.deadline timeout now)
  show ((q.paused.erase t).takeWhile behind ++ t :: (q.paused.erase t).dropWhile behind).Perm _
  refine perm_middle.trans (List.Perm.cons t ?_)
  rw [takeWhile_append_dropWhile]

theorem insertTimed_threads (q : Queues V) (t : ThreadId) (timeout : Timeout) (now : Timeval)
    (u : ThreadId) :
    (q.insertTimed t timeout now).threads u =
      if u = t then { q.threads t with timeval := q.deadline timeout now } else q.threads u := by
  show ((q.delete t).toGlobals.setThread t fun c =>
    { c with timeval := q.deadline timeout now }).threads u = _
  rw [Globals.setThread_threads]
  rfl

theorem mem_paused_insertTimed (q : Queues V) (t : ThreadId) (timeout : Timeout) (now : Timeval)
    (u : ThreadId) : u ∈ (q.insertTimed t timeout now).paused ↔ u = t ∨ u ∈ q.paused := by
  rw [(q.insertTimed_perm t timeout now).mem_iff, mem_cons]
  by_cases heq : u = t
  · simp [heq]
  · rw [mem_erase_of_ne heq]

theorem insertTimed_waitp (q : Queues V) (t : ThreadId) (timeout : Timeout) (now : Timeval)
    (u : ThreadId) : ((q.insertTimed t timeout now).threads u).waitp = (q.threads u).waitp := by
  rw [insertTimed_threads]
  split
  · rename_i heq
    rw [heq]
  · rfl

theorem insertTimed_refuel (q : Queues V) (t : ThreadId) (timeout : Timeout) (now : Timeval)
    (u : ThreadId) : ((q.insertTimed t timeout now).threads u).refuel = (q.threads u).refuel := by
  rw [insertTimed_threads]
  split
  · rename_i heq
    rw [heq]
  · rfl

theorem insertTimed_nodup (hnodup : (q.run ++ q.paused).Nodup) (hnot : t ∉ q.run)
    (timeout : Timeout) (now : Timeval) :
    ((q.insertTimed t timeout now).run ++ (q.insertTimed t timeout now).paused).Nodup := by
  refine ((List.Perm.append_left _ (q.insertTimed_perm t timeout now)).nodup_iff).mpr ?_
  refine nodup_middle.mpr (nodup_cons.mpr ⟨?_, ?_⟩)
  · rw [mem_append, not_or]
    exact ⟨hnot, (nodup_append.mp hnodup).2.1.not_mem_erase⟩
  · exact hnodup.sublist (List.Sublist.append_left erase_sublist _)

theorem setThread_threads (q : Queues V) (t u : ThreadId) (f : Context V → Context V) :
    (q.setThread t f).threads u = if u = t then f (q.threads t) else q.threads u :=
  q.toGlobals.setThread_threads t u f

namespace Conserved

variable (hconserved : q.Conserved cur started)
include hconserved

theorem nodup_paused : q.paused.Nodup :=
  (nodup_append.mp hconserved.nodup).2.1

theorem not_paused_of_run (hrun : t ∈ q.run) :
    t ∉ q.paused := fun hpaused =>
  (nodup_append.mp hconserved.nodup).2.2 t hrun t hpaused rfl

theorem not_paused (hwait : (q.threads cur).waitp = false) : cur ∉ q.paused := fun hmem => by
  have hwaiting := hconserved.waiting cur hmem
  rw [hwait] at hwaiting
  cases hwaiting

theorem rearrange (hperm : (q'.run ++ q'.paused).Perm (q.run ++ q.paused)) (hcurrent : cur ∉ q'.run)
    (hwaiting : ∀ t ∈ q'.paused, (q'.threads t).waitp = true)
    (hrefuel : ∀ t, 0 < (q'.threads t).refuel → 0 < (q.threads t).refuel) :
    q'.Conserved cur started where
  nodup := hperm.nodup_iff.mpr hconserved.nodup
  current := hcurrent
  waiting := hwaiting
  queued t ht := hconserved.queued t (hperm.mem_iff.mp ht)
  began := hconserved.began
  kept t ht hpos := by
    rw [hperm.mem_iff]
    exact hconserved.kept t ht (hrefuel t hpos)

theorem setThread (t : ThreadId)
    {f : Context V → Context V} (hwait : t ∈ q.paused → (f (q.threads t)).waitp = true)
    (hrefuel : 0 < (f (q.threads t)).refuel → 0 < (q.threads t).refuel) :
    (q.setThread t f).Conserved cur started := by
  refine hconserved.rearrange (.refl _) hconserved.current (fun u hu => ?_) fun u hpos => ?_
  · rw [setThread_threads]
    split
    · rename_i heq
      exact hwait (heq ▸ hu)
    · exact hconserved.waiting u hu
  · rw [setThread_threads] at hpos
    split at hpos
    · rename_i heq
      rw [heq]
      exact hrefuel hpos
    · exact hpos

theorem onGlobals {f : Globals V → Globals V}
    (hf : ∀ g, (f g).threads = g.threads) : (q.onGlobals f).Conserved cur started := by
  have hthreads : (q.onGlobals f).threads = q.threads := hf _
  refine hconserved.rearrange (.refl _) hconserved.current (fun u hu => ?_) fun u hpos => ?_
  · rw [hthreads]
    exact hconserved.waiting u hu
  · rwa [hthreads] at hpos

/-! ## Operations -/

theorem insertTimed (hnot : t ∉ q.run)
    (hstarted : t ∈ started) (hwait : (q.threads t).waitp = true) (timeout : Timeout)
    (now : Timeval) :
    (q.insertTimed t timeout now).Conserved cur started := by
  have hmem := q.mem_paused_insertTimed t timeout now
  constructor
  · exact insertTimed_nodup hconserved.nodup hnot timeout now
  · exact hconserved.current
  · intro u hu
    rw [insertTimed_waitp]
    rcases (hmem u).mp hu with rfl | hu
    · exact hwait
    · exact hconserved.waiting u hu
  · intro u hu
    rw [mem_append, hmem] at hu
    rcases hu with hu | rfl | hu
    · exact hconserved.queued u (mem_append_left _ hu)
    · exact hstarted
    · exact hconserved.queued u (mem_append_right _ hu)
  · exact hconserved.began
  · intro u hu hpos
    rw [insertTimed_refuel] at hpos
    rw [mem_append, hmem]
    rcases hconserved.kept u hu hpos with heq | hqueued
    · exact .inl heq
    · rw [mem_append] at hqueued
      tauto

theorem block (event : Event) (timeout : Timeout)
    (now : Timeval) : (q.block cur event timeout now).Conserved cur started := by
  let wait := fun c : Context V => { c with waitp := true, event := event }
  have hwait : (q.setThread cur wait).Conserved cur started :=
    hconserved.setThread cur (fun _ => rfl) id
  refine hwait.insertTimed hconserved.current hconserved.began ?_ timeout now
  rw [setThread_threads, if_pos rfl]

theorem start (hnew : t ∉ started) :
    (q.start t).Conserved cur (t :: started) := by
  have hnot : t ∉ q.run ++ q.paused := fun hmem => hnew (hconserved.queued t hmem)
  have hne : cur ≠ t := fun heq => hnew (heq ▸ hconserved.began)
  have hthreads : ∀ u, (q.start t).threads u =
      if u = t then { q.threads t with errorp := false } else q.threads u :=
    fun u => q.setThread_threads t u fun c => { c with errorp := false }
  constructor
  · show (q.run ++ [t] ++ q.paused).Nodup
    rw [append_assoc, singleton_append]
    exact nodup_middle.mpr (nodup_cons.mpr ⟨hnot, hconserved.nodup⟩)
  · show cur ∉ q.run ++ [t]
    rw [mem_append, mem_singleton, not_or]
    exact ⟨hconserved.current, hne⟩
  · intro u hu
    have hpaused : u ∈ q.paused := hu
    rw [hthreads, if_neg]
    · exact hconserved.waiting u hpaused
    · rintro rfl
      exact hnot (mem_append_right _ hpaused)
  · intro u hu
    have hu' : u ∈ q.run ++ [t] ++ q.paused := hu
    simp only [mem_append, mem_singleton] at hu'
    rcases hu' with (hu' | rfl) | hu'
    · exact mem_cons_of_mem _ (hconserved.queued u (mem_append_left _ hu'))
    · exact mem_cons_self
    · exact mem_cons_of_mem _ (hconserved.queued u (mem_append_right _ hu'))
  · exact mem_cons_of_mem _ hconserved.began
  · intro u hu hpos
    show u = cur ∨ u ∈ q.run ++ [t] ++ q.paused
    by_cases heq : u = t
    · exact .inr (by simp [heq])
    rw [hthreads, if_neg heq] at hpos
    rcases hconserved.kept u ((mem_cons.mp hu).resolve_left heq) hpos with hcur | hqueued
    · exact .inl hcur
    · rw [mem_append] at hqueued
      simp only [mem_append]
      tauto

theorem terminateOne (hnot : cur ∉ q.paused)
    (ctx t : ThreadId) :
    (q.terminateOne ctx t).Conserved cur started ∧ cur ∉ (q.terminateOne ctx t).paused := by
  have hmarked : (q.markTerminated ctx t).Conserved cur started ∧
      cur ∉ (q.markTerminated ctx t).paused := by
    unfold Queues.markTerminated
    split
    · exact ⟨hconserved.setThread t (hconserved.waiting t) fun hpos => absurd hpos (lt_irrefl _),
        hnot⟩
    · exact ⟨hconserved, hnot⟩
  rw [Queues.terminateOne_eq]
  generalize q.markTerminated ctx t = q' at hmarked ⊢
  obtain ⟨hconserved', hnot'⟩ := hmarked
  split
  · rename_i hpaused
    let reset := fun c : Context V => { c with errorp := false }
    have hreset : (q'.setThread t reset).Conserved cur started :=
      hconserved'.setThread t (hconserved'.waiting t) id
    have hne : cur ≠ t := fun heq => hnot' (heq ▸ hpaused)
    refine ⟨hreset.rearrange ?_ ?_ (fun u hu => ?_) fun u hpos => hpos, fun hmem => ?_⟩
    · show (q'.run ++ [t] ++ q'.paused.erase t).Perm (q'.run ++ q'.paused)
      rw [append_assoc, singleton_append]
      exact List.Perm.append_left _ (perm_cons_erase hpaused).symm
    · show cur ∉ q'.run ++ [t]
      rw [mem_append, mem_singleton, not_or]
      exact ⟨hconserved'.current, hne⟩
    · exact hreset.waiting u (mem_of_mem_erase hu)
    · exact hnot' (mem_of_mem_erase hmem)
  · exact ⟨hconserved', hnot'⟩

theorem terminate (hnot : cur ∉ q.paused)
    (ctx t : ThreadId) :
    (q.terminate ctx t).Conserved cur started := by
  unfold Queues.terminate
  generalize t :: (q.threads t).children = threads
  induction threads generalizing q with
  | nil => exact hconserved
  | cons u threads ih =>
    obtain ⟨hconserved', hnot'⟩ := hconserved.terminateOne hnot ctx u
    exact ih hconserved' hnot'

theorem wakeFirst (hnot : cur ∉ q.paused) (event : Event) :
    (q.wakeFirst event).2.Conserved cur started ∧ cur ∉ (q.wakeFirst event).2.paused := by
  unfold Queues.wakeFirst
  split
  · rename_i t hfind
    have hpaused : t ∈ q.paused := mem_of_find?_eq_some hfind
    have hne : cur ≠ t := fun heq => hnot (heq ▸ hpaused)
    refine ⟨hconserved.rearrange ?_ ?_ (fun u hu => ?_) fun u hpos => ?_, fun hmem => ?_⟩
    · show (t :: q.run ++ q.paused.erase t).Perm (q.run ++ q.paused)
      refine perm_middle.symm.trans (List.Perm.append_left _ ?_)
      exact (perm_cons_erase hpaused).symm
    · show cur ∉ t :: q.run
      rw [mem_cons, not_or]
      exact ⟨hne, hconserved.current⟩
    · have hu' : u ∈ q.paused.erase t := hu
      rw [hconserved.nodup_paused.mem_erase_iff] at hu'
      show ((q.setThread t Context.wake).threads u).waitp = true
      rw [setThread_threads, if_neg hu'.1]
      exact hconserved.waiting u hu'.2
    · have hpos' : 0 < ((q.setThread t Context.wake).threads u).refuel := hpos
      rw [setThread_threads] at hpos'
      split at hpos'
      · rename_i heq
        rw [heq]
        exact hpos'
      · exact hpos'
    · exact hnot (mem_of_mem_erase hmem)
  · exact ⟨hconserved, hnot⟩

theorem unlockFirst (hnot : cur ∉ q.paused) (ctx : ThreadId) (mutex : ℕ) :
    (q.unlockFirst ctx mutex).Conserved cur started ∧ cur ∉ (q.unlockFirst ctx mutex).paused := by
  unfold Queues.unlockFirst
  split
  · have hunlocked : (q.onGlobals fun g => g.setMutex mutex ⟨false, some ctx⟩).Conserved cur
        started := hconserved.onGlobals fun _ => rfl
    exact hunlocked.wakeFirst hnot _
  · exact ⟨hconserved, hnot⟩

theorem broadcast (hnot : cur ∉ q.paused) (condvar : Event) :
    (q.broadcast condvar).Conserved cur started ∧ cur ∉ (q.broadcast condvar).paused := by
  unfold Queues.broadcast
  generalize q.paused.length + 1 = turns
  induction turns generalizing q with
  | zero => exact ⟨hconserved, hnot⟩
  | succ turns ih =>
    obtain ⟨hconserved', hnot'⟩ := hconserved.wakeFirst hnot condvar
    unfold Queues.broadcastLoop
    dsimp only
    split
    · exact ih hconserved' hnot'
    · exact ⟨hconserved', hnot'⟩

theorem blocker (portorfd : Event) (timeout : Timeout)
    (now : Timeval) : (q.blocker cur portorfd timeout now).Conserved cur started := by
  unfold Queues.blocker
  split
  · exact hconserved
  rename_i fd _
  dsimp only
  split
  · have hpolled : (q.onGlobals fun g =>
        g.insertPollfd fd (World.pollEvents portorfd)).Conserved cur started :=
      hconserved.onGlobals fun g => g.insertPollfd_threads fd _
    exact hpolled.block portorfd timeout now
  · exact hconserved.block portorfd timeout now

omit hconserved

theorem perform {m : Machine (Queues V)} (hconserved : m.queues.Conserved m.current m.started)
    (hnot : m.current ∉ m.queues.paused) (now : Timeval) (op : Operation V)
    (hmay : m.mayStart op) :
    (m.queues.perform m.current now op).Conserved m.current (m.startedBy op) := by
  cases op with
  | compute arg1 => exact hconserved.setThread _ (hconserved.waiting _) id
  | start t => exact hconserved.start hmay
  | terminate t => exact hconserved.terminate hnot _ t
  | join t timeout =>
    show (m.queues.join _ t timeout now).Conserved _ _
    unfold Queues.join
    split
    · exact hconserved
    · let reset := fun c : Context V => { c with timeoutp := false }
      have hreset : (m.queues.setThread m.current reset).Conserved m.current m.started :=
        hconserved.setThread _ (hconserved.waiting _) id
      exact hreset.block _ timeout now
  | sleep timeout =>
    cases timeout with
    | none => exact hconserved.setThread _ (fun _ => rfl) id
    | some timeout =>
      show (m.queues.sleep _ (some timeout) now).Conserved _ _
      unfold Queues.sleep
      dsimp only
      split
      · exact hconserved.block _ timeout now
      · exact hconserved.setThread _ (fun _ => rfl) id
  | lock mutex timeout owner =>
    show (m.queues.lock _ mutex timeout owner now).Conserved _ _
    unfold Queues.lock
    split
    · exact hconserved.block _ timeout now
    · exact hconserved.onGlobals fun _ => rfl
  | unlock mutex condvar timeout =>
    have hunlocked := (hconserved.unlockFirst hnot m.current mutex).1
    cases condvar with
    | none => exact hunlocked
    | some condvar => exact hunlocked.block condvar timeout now
  | signal condvar => exact (hconserved.wakeFirst hnot condvar).1
  | broadcast condvar => exact (hconserved.broadcast hnot condvar).1
  | block portorfd timeout => exact hconserved.blocker portorfd timeout now
  | finish errorp => exact hconserved.setThread _ (hconserved.waiting _) id

end Conserved

/-! ### A paused thread that is current has not terminated -/

theorem block_refuel (q : Queues V) (ctx : ThreadId) (event : Event) (timeout : Timeout)
    (now : Timeval) (u : ThreadId) :
    ((q.block ctx event timeout now).threads u).refuel = (q.threads u).refuel := by
  let wait := fun c : Context V => { c with waitp := true, event := event }
  have hwait : ((q.setThread ctx wait).threads u).refuel = (q.threads u).refuel := by
    rw [setThread_threads]
    split
    · rename_i heq
      rw [heq]
    · rfl
  rw [← hwait]
  show (((q.setThread ctx wait).insertTimed ctx timeout now).threads u).refuel = _
  rw [insertTimed_threads]
  split
  · rename_i heq
    rw [heq]
  · rfl

theorem wakeFirst_refuel (q : Queues V) (event : Event) (u : ThreadId) :
    ((q.wakeFirst event).2.threads u).refuel = (q.threads u).refuel := by
  unfold Queues.wakeFirst
  split
  · rename_i t _
    show ((q.setThread t Context.wake).threads u).refuel = _
    rw [setThread_threads]
    split
    · rename_i heq
      rw [heq]
      rfl
    · rfl
  · rfl

theorem unlockFirst_refuel (q : Queues V) (ctx : ThreadId) (mutex : ℕ) (u : ThreadId) :
    ((q.unlockFirst ctx mutex).threads u).refuel = (q.threads u).refuel := by
  unfold Queues.unlockFirst
  split
  · exact wakeFirst_refuel _ _ u
  · rfl

/-- The only operations that leave the current thread in the paused list are those that pause it. -/
theorem Conserved.pauses_of_paused {m : Machine (Queues V)}
    (hconserved : m.queues.Conserved m.current m.started) (hnot : m.current ∉ m.queues.paused)
    (now : Timeval) (op : Operation V)
    (hpaused : m.current ∈ (m.queues.perform m.current now op).paused) :
    ∃ timeout, m.queues.pauses op = some timeout := by
  cases op with
  | compute | finish | start => exact absurd hpaused hnot
  | terminate t =>
    refine absurd hpaused ?_
    show m.current ∉ (m.queues.terminate m.current t).paused
    unfold Queues.terminate
    generalize t :: (m.queues.threads t).children = threads
    generalize m.queues = q at hconserved hnot
    clear hpaused
    induction threads generalizing q with
    | nil => exact hnot
    | cons u threads ih =>
      obtain ⟨hconserved', hnot'⟩ := hconserved.terminateOne hnot m.current u
      exact ih _ hconserved' hnot'
  | join t timeout =>
    change m.current ∈ (m.queues.join m.current t timeout now).paused at hpaused
    unfold Queues.join at hpaused
    split at hpaused
    · exact absurd hpaused hnot
    · rename_i hrefuel
      exact ⟨timeout, if_neg hrefuel⟩
  | sleep timeout =>
    cases timeout with
    | none => exact absurd hpaused hnot
    | some timeout =>
      change m.current ∈ (m.queues.sleep m.current (some timeout) now).paused at hpaused
      unfold Queues.sleep at hpaused
      dsimp only at hpaused
      split at hpaused
      · rename_i hreal
        exact ⟨timeout, Option.filter_some_pos hreal⟩
      · exact absurd hpaused hnot
  | lock mutex timeout owner =>
    change m.current ∈ (m.queues.lock m.current mutex timeout owner now).paused at hpaused
    unfold Queues.lock at hpaused
    split at hpaused
    · rename_i hlocked
      exact ⟨timeout, if_pos hlocked⟩
    · exact absurd hpaused hnot
  | unlock mutex condvar timeout =>
    cases condvar with
    | none => exact absurd hpaused (hconserved.unlockFirst hnot m.current mutex).2
    | some condvar => exact ⟨timeout, rfl⟩
  | signal condvar => exact absurd hpaused (hconserved.wakeFirst hnot condvar).2
  | broadcast condvar => exact absurd hpaused (hconserved.broadcast hnot condvar).2
  | block portorfd timeout =>
    change m.current ∈ (m.queues.blocker m.current portorfd timeout now).paused at hpaused
    unfold Queues.blocker at hpaused
    split at hpaused
    · exact absurd hpaused hnot
    · rename_i fd hfd
      exact ⟨timeout, Option.map_eq_some_iff.mpr ⟨fd, hfd, rfl⟩⟩

/-- An operation that pauses the current thread does not terminate it. -/
theorem pauses_refuel {q : Queues V} {cur : ThreadId} {timeout : Timeout} {op : Operation V}
    (hpauses : q.pauses op = some timeout) (now : Timeval) :
    ((q.perform cur now op).threads cur).refuel = (q.threads cur).refuel := by
  cases op with
  | compute | finish | start | terminate | signal | broadcast => cases hpauses
  | join t timeout' =>
    show ((q.join cur t timeout' now).threads cur).refuel = _
    unfold Queues.join
    split
    · rfl
    · rw [block_refuel, setThread_threads, if_pos rfl]
  | sleep timeout' =>
    cases timeout' with
    | none => cases hpauses
    | some timeout' =>
      show ((q.sleep cur (some timeout') now).threads cur).refuel = _
      unfold Queues.sleep
      dsimp only
      split
      · rw [block_refuel]
      · rw [setThread_threads, if_pos rfl]
  | lock mutex timeout' owner =>
    show ((q.lock cur mutex timeout' owner now).threads cur).refuel = _
    unfold Queues.lock
    split
    · rw [block_refuel]
    · rfl
  | unlock mutex condvar timeout' =>
    cases condvar with
    | none => cases hpauses
    | some condvar =>
      show (((q.unlockFirst cur mutex).block cur condvar timeout' now).threads cur).refuel = _
      rw [block_refuel, unlockFirst_refuel]
  | block portorfd timeout' =>
    show ((q.blocker cur portorfd timeout' now).threads cur).refuel = _
    unfold Queues.blocker
    split
    · rfl
    rename_i fd _
    dsimp only
    rw [block_refuel]
    split
    · show ((q.insertPollfd fd _).threads cur).refuel = _
      rw [Globals.insertPollfd_threads]
    · rfl

end Queues

end ChibiScheme.Thread
