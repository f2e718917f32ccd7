import ChibiScheme.Thread.Scheduler

/-!
# The run queue and the paused list as lists

What the thread operations and the scheduler do, when the run queue and the paused list are taken
as lists of threads: no operation fails, and no loop needs a bound.
-/

namespace ChibiScheme.Thread

/-- The queues as lists of threads. -/
structure Queues (V : Type) extends Globals V where
  run : List ThreadId
  paused : List ThreadId

namespace Queues

variable {V : Type} (q : Queues V)

/-- A change of what is no queue. -/
def onGlobals (f : Globals V → Globals V) : Queues V := { q with toGlobals := f q.toGlobals }

/-- A thread with a changed context. -/
def setThread (t : ThreadId) (f : Context V → Context V) : Queues V :=
  q.onGlobals fun g => g.setThread t f

/-- Several threads with a changed context. -/
def setThreads (some : ThreadId → Bool) (f : Context V → Context V) : Queues V :=
  { q with threads := fun t => if some t then f (q.threads t) else q.threads t }

/-- `sexp_thread_start` -/
def start (thread : ThreadId) : Queues V :=
  { q.setThread thread fun c => { c with errorp := false } with run := q.run ++ [thread] }

/-- `sexp_delete_list` -/
def delete (x : ThreadId) : Queues V := { q with paused := q.paused.erase x }

/-- The termination of one thread. -/
def terminateOne (ctx thread : ThreadId) : Queues V :=
  let q :=
    if 0 < (q.threads ctx).refuel then
      q.setThread thread fun c =>
        { c with errorp := true, result := some q.terminateError, refuel := 0 }
    else q
  if thread ∈ q.paused then (q.delete thread).start thread else q

/-- The first part of `terminateOne`. -/
def markTerminated (ctx thread : ThreadId) : Queues V :=
  if 0 < (q.threads ctx).refuel then
    q.setThread thread fun c => { c with errorp := true, result := some q.terminateError, refuel := 0 }
  else q

theorem terminateOne_eq (ctx thread : ThreadId) : q.terminateOne ctx thread =
    if thread ∈ (q.markTerminated ctx thread).paused then
      ((q.markTerminated ctx thread).delete thread).start thread
    else q.markTerminated ctx thread := rfl

/-- `sexp_thread_terminate`: the thread and its children. -/
def terminate (ctx thread : ThreadId) : Queues V :=
  (thread :: (q.threads thread).children).foldl (fun q t => q.terminateOne ctx t) q

/-- `sexp_insert_timed` -/
def insertTimed (thread : ThreadId) (timeout : Timeout) (now : Timeval) : Queues V :=
  let tv := q.deadline timeout now
  let q := (q.delete thread).setThread thread fun c => { c with timeval := tv }
  { q with
    paused := q.paused.takeWhile (q.behind timeout tv) ++
      thread :: q.paused.dropWhile (q.behind timeout tv) }

/-- The thread waits for an event and goes to the paused list. -/
def block (ctx : ThreadId) (event : Event) (timeout : Timeout) (now : Timeval) : Queues V :=
  (q.onGlobals fun g => g.wait ctx event).insertTimed ctx timeout now

/-- `sexp_thread_join` -/
def join (ctx thread : ThreadId) (timeout : Timeout) (now : Timeval) : Queues V :=
  if (q.threads thread).refuel ≤ 0 then q
  else (q.setThread ctx fun c => { c with timeoutp := false }).block ctx (.thread thread) timeout now

/-- `sexp_thread_sleep` -/
def sleep (ctx : ThreadId) (timeout : Option Timeout) (now : Timeval) : Queues V :=
  match timeout with
  | none => q.setThread ctx fun c => { c with waitp := true }
  | some timeout =>
    if timeout.isReal then q.block ctx .none timeout now
    else q.setThread ctx fun c => { c with waitp := true }

/-- `sexp_mutex_lock` -/
def lock (ctx : ThreadId) (mutex : ℕ) (timeout : Timeout) (thread : Option ThreadId)
    (now : Timeval) : Queues V :=
  if (q.mutexes mutex).lockp then q.block ctx (.mutex mutex) timeout now
  else q.onGlobals fun g => g.setMutex mutex ⟨true, thread⟩

/-- The first thread that is paused for the event goes to the front of the run queue. -/
def wakeFirst (event : Event) : Bool × Queues V :=
  match q.paused.find? fun t => decide ((q.threads t).event = event) with
  | some t =>
    (true, { q.setThread t .wake with run := t :: q.run, paused := q.paused.erase t })
  | none => (false, q)

/-- The part of `sexp_mutex_unlock` that wakes a thread. -/
def unlockFirst (ctx : ThreadId) (mutex : ℕ) : Queues V :=
  if (q.mutexes mutex).lockp then
    ((q.onGlobals fun g => g.setMutex mutex ⟨false, some ctx⟩).wakeFirst (.mutex mutex)).2
  else q

/-- `sexp_mutex_unlock` -/
def unlock (ctx : ThreadId) (mutex : ℕ) (condvar : Option Event) (timeout : Timeout)
    (now : Timeval) : Queues V :=
  match condvar with
  | none => q.unlockFirst ctx mutex
  | some condvar => (q.unlockFirst ctx mutex).block ctx condvar timeout now

/-- One thread after the other is woken. -/
def broadcastLoop (condvar : Event) : ℕ → Queues V → Queues V
  | 0, q => q
  | fuel + 1, q =>
    let (woken, q) := q.wakeFirst condvar
    if woken then broadcastLoop condvar fuel q else q

/-- `sexp_condition_variable_broadcast` -/
def broadcast (condvar : Event) : Queues V := broadcastLoop condvar (q.paused.length + 1) q

/-- `sexp_blocker` -/
def blocker (ctx : ThreadId) (portorfd : Event) (timeout : Timeout) (now : Timeval) : Queues V :=
  match World.portFd portorfd with
  | none => q
  | some fd =>
    let q :=
      if 0 ≤ fd then q.onGlobals fun g => g.insertPollfd fd (World.pollEvents portorfd) else q
    q.block ctx portorfd timeout now

/-! ## The scheduler -/

/-- All threads that are paused for such an event leave the list; those to be queued enter the run
queue. -/
def wakeAll (hit : Event → Bool) (wake : Context V → Context V) (queued : ThreadId → Bool) :
    Queues V :=
  let woken := fun t => hit (q.threads t).event
  { q.setThreads (fun t => decide (t ∈ q.paused) && woken t) wake with
    run := q.run ++ (q.paused.filter woken).filter queued
    paused := q.paused.filter fun t => !woken t }

/-- The threads that wait for a descriptor are woken. -/
def wakeFd (ctx : ThreadId) (fd : ℤ) : Queues V :=
  let q := if (q.threads ctx).event.onFd fd then q.setThread ctx .wakeReady else q
  q.wakeAll (Event.onFd fd) .wakeReady fun t => decide (t ≠ ctx)

/-- The loop over the polled descriptors. -/
def pollLoop (ctx : ThreadId) (revents : ℕ → Bool) : ℕ → ℤ → Queues V → Queues V
  | 0, _, q => q
  | i + 1, k, q =>
    if 0 < k then
      match revents i, q.pollfds[i]? with
      | true, some pfd =>
        pollLoop ctx revents i (k - 1)
          ((q.wakeFd ctx pfd.fd).onGlobals fun g => g.removePollfd i)
      | _, _ => pollLoop ctx revents i k q
    else q

/-- The descriptors that are ready wake their threads. -/
def checkFds (ctx : ThreadId) (tick : Tick) : Queues V :=
  pollLoop ctx tick.revents q.pollfds.length tick.ready q

/-- A thread that has ended wakes those that join it. -/
def checkJoins (ctx : ThreadId) : Queues V :=
  if (q.threads ctx).refuel ≤ 0 then
    q.wakeAll (fun e => decide (e = .thread ctx)) .wake fun _ => true
  else q

/-- The deadline of the thread has passed. -/
def expired (now : Timeval) (t : ThreadId) : Bool := sexpContextBefore (q.threads t).timeval now

/-- The threads at the front with a passed deadline are woken. -/
def checkTimeouts (now : Timeval) : Queues V :=
  let woken := q.paused.takeWhile (q.expired now)
  { q.setThreads (fun t => decide (t ∈ woken)) .wakeTimeout with
    run := q.run ++ woken
    paused := q.paused.dropWhile (q.expired now) }

/-- The three phases before a thread is chosen. -/
def wakePhases (ctx : ThreadId) (tick : Tick) : Queues V :=
  ((q.checkFds ctx tick).checkJoins ctx).checkTimeouts tick.now

/-- The thread that runs next. -/
def dequeue (ctx : ThreadId) (now : Timeval) : ThreadId × Queues V :=
  match q.run with
  | res :: rest =>
    if (q.threads ctx).refuel ≤ 0 ∨ (q.threads ctx).waitp then
      let q := { q with run := rest }
      (res, if 0 < (q.threads ctx).refuel ∧ ctx ∉ q.paused then q.insertTimed ctx .other now
        else q)
    else (res, { q with run := rest ++ [ctx] })
  | [] =>
    if (q.threads ctx).refuel ≤ 0 then
      ((q.paused.find? fun t => (q.threads t).event.isInput).getD ctx, q)
    else (ctx, q)

/-- The first paused thread if it is due before `res`, which waits. -/
def earliest (res : ThreadId) (now : Timeval) : ThreadId × Queues V :=
  match q.paused with
  | first :: rest =>
    if sexpContextBefore (q.threads first).timeval (q.threads res).timeval then
      let q := { q with paused := rest }
      (first, if res ∈ rest then q else q.insertTimed res (.context res) now)
    else (res, q.delete res)
  | [] => (res, q)

/-- A nap of at most 10 ms, after which the thread is woken. -/
def nap (res : ThreadId) (now : Timeval) : Queues V :=
  let tv := (q.threads res).timeval
  if tv = .zero then q
  else if 10 * 1000 < World.napTime tv now then q
  else q.setThread res .wakeTimeout

/-- The end of the scheduler: a thread that waits is waited for. -/
def settle (res : ThreadId) (now : Timeval) : ThreadId × Queues V :=
  if (q.threads res).waitp then
    let (res, q) := q.earliest res now
    (res, q.nap res now)
  else (res, q)

/-- `sexp_scheduler` -/
def scheduler (ctx : ThreadId) (tick : Tick) : ThreadId × Queues V :=
  let (res, q) := (q.wakePhases ctx tick).dequeue ctx tick.now
  q.settle res tick.later

/-! ## Runs -/

/-- One operation of the current thread. -/
def perform (ctx : ThreadId) (now : Timeval) : Operation V → Queues V
  | .compute arg1 => q.setThread ctx fun c => { c with arg1 := arg1 }
  | .start thread => q.start thread
  | .terminate thread => q.terminate ctx thread
  | .join thread timeout => q.join ctx thread timeout now
  | .sleep timeout => q.sleep ctx timeout now
  | .lock mutex timeout thread => q.lock ctx mutex timeout thread now
  | .unlock mutex condvar timeout => q.unlock ctx mutex condvar timeout now
  | .signal condvar => (q.wakeFirst condvar).2
  | .broadcast condvar => q.broadcast condvar
  | .block portorfd timeout => q.blocker ctx portorfd timeout now
  | .finish errorp => q.setThread ctx fun c => { c with errorp := errorp || c.errorp }

/-- The queues as a level of the machine. -/
def level (V : Type) : Level V (Queues V) where
  threads q := q.threads
  setThread := Queues.setThread
  pauses q := q.pauses
  perform q ctx now op := some (q.perform ctx now op)
  scheduler q ctx tick := some (q.scheduler ctx tick)

end Queues

namespace Machine

variable {V : Type} {n n' : Machine (Queues V)} {now : Timeval} {op : Operation V} {tick : Tick}

/-- The machine after an operation that does not raise. -/
def performed (n : Machine (Queues V)) (now : Timeval) (op : Operation V) : Machine (Queues V) :=
  { n with
    queues := n.queues.perform n.current now op
    started := n.startedBy op
    raised := n.raisedBy (Queues.level V) op }

/-- The machine after a run of the scheduler. -/
def scheduled (n : Machine (Queues V)) (tick : Tick) : Machine (Queues V) :=
  { n with
    queues := (n.queues.scheduler n.current tick).2
    current := (n.queues.scheduler n.current tick).1
    raised := false }

/-- The new current thread gets to the end of its code if it has terminated. -/
def resumed (n : Machine (Queues V)) : Machine (Queues V) :=
  if (n.queues.threads n.current).refuel ≤ 0 then n.endLoop (Queues.level V) else n

/-- The current thread does not go on when it is paused. -/
theorem raisedBy_of_pauses {timeout : Timeout} (hpauses : n.queues.pauses op = some timeout) :
    n.raisedBy (Queues.level V) op = false := by
  cases op with
  | compute | start | terminate | signal | broadcast | finish => cases hpauses
  | sleep timeout' =>
    obtain ⟨rfl, hreal⟩ := Option.filter_eq_some_iff.mp hpauses
    show (!timeout.isReal) = false
    rw [hreal]
    rfl
  | join | lock | unlock | block => simp [Machine.raisedBy, Queues.level, hpauses]

theorem step_perform (hstep : n.step (Queues.level V) (.perform now op) = some n') :
    n.Running (Queues.level V) ∧ n.mayStart op ∧
      n' = (n.performed now op).after (Queues.level V) op := by
  have hstep' : n.performStep (Queues.level V) now op = some n' := hstep
  unfold performStep at hstep'
  by_cases hmay : n.Running (Queues.level V) ∧ n.mayStart op
  · rw [if_pos hmay] at hstep'
    exact ⟨hmay.1, hmay.2, (Option.some.inj hstep').symm⟩
  · rw [if_neg hmay] at hstep'
    cases hstep'

theorem step_schedule (hstep : n.step (Queues.level V) (.schedule tick) = some n') :
    n.returned = false ∧ n' = (n.scheduled tick).resumed := by
  have hstep' : n.scheduleStep (Queues.level V) tick = some n' := hstep
  unfold scheduleStep at hstep'
  by_cases hreturned : n.returned = true
  · rw [if_pos hreturned] at hstep'
    cases hstep'
  · rw [if_neg hreturned] at hstep'
    exact ⟨Bool.eq_false_of_not_eq_true hreturned, (Option.some.inj hstep').symm⟩

end Machine

end ChibiScheme.Thread
